/-!
# Options of loading

How a game file is to be loaded: under which name its script keeps the table of game data, and what
speed its facilities are given, since the file says nothing of speeds.
-/

namespace ProductionRates

/-- How a game file is to be loaded. -/
structure LoadOptions where
  /-- The name under which the script keeps the game data. -/
  globalName : String
  /-- The speed of every facility. -/
  productionSpeed : Float
  deriving BEq

/-- The options that hold unless others are given. -/
def LoadOptions.default : LoadOptions := ⟨"gameData", 1⟩

end ProductionRates
