import ProductionRates.Catalogue.Exchange
import ProductionRates.Catalogue.Producers
import ProductionRates.Catalogue.Samples
import ProductionRates.Catalogue.Wire
import ProductionRates.Decimal.Layout
import ProductionRates.Decimal.Numeral
import ProductionRates.Demand.Expansion
import ProductionRates.Demand.TreeExchange
import ProductionRates.GameFile.Loading
import ProductionRates.GameFile.Mapping
import ProductionRates.Json.Decode
import ProductionRates.Json.Reader
import ProductionRates.Json.Writer
import ProductionRates.Proofs.Catalogue.Registration
import ProductionRates.Proofs.Demand.Leaves
import ProductionRates.Proofs.Demand.Stability
import ProductionRates.Proofs.Demand.TreeText
import ProductionRates.Proofs.GameFile.ExtraFields
import ProductionRates.Proofs.GameFile.Numbers
import ProductionRates.Proofs.GameFile.Speed
import ProductionRates.Proofs.Script.Comments
import ProductionRates.Proofs.Script.Completion
import ProductionRates.Proofs.Script.DataGrammar
import ProductionRates.Proofs.Script.Endings
import ProductionRates.Proofs.Script.LongBrackets
import ProductionRates.Proofs.Script.Places
import ProductionRates.Proofs.Script.Precedence
import ProductionRates.Proofs.Script.Printing
import ProductionRates.Proofs.Script.Sameness
import ProductionRates.Proofs.Script.Stretches
import ProductionRates.Proofs.Script.Targets
import ProductionRates.Proofs.Script.Writing
import ProductionRates.Script.Chunk
import ProductionRates.Script.Evaluation
import ProductionRates.Script.Grammar
import ProductionRates.Script.Lexeme
import ProductionRates.Script.Parse
import ProductionRates.Script.Token
import ProductionRates.Table
