import ProductionRates.Catalogue.GameData

/-!
# Sample game data

Three small sets of game data: one recipe on its own, a choice between two recipes, and recipes
that go round in a circle.
-/

namespace ProductionRates
namespace Samples

/-- An entry of a recipe. -/
def entry (item : Nat) (count : UInt32) : RecipeEntry := ⟨⟨item⟩, count⟩

/-- Three water make one iron in five seconds. -/
def waterIron : GameData where
  items := [.plain "water" .resource, .plain "iron" .component, .building "smelter" .smelt 1]
  recipes := [⟨[entry 0 3], [entry 1 1], ⟨2⟩, 5⟩]
  starting := [⟨0⟩]
  sound := by decide +kernel

/-- Two ores are smelted to copper and iron, and circuits are made in two ways: two of one iron and
one copper in a second, or one of two iron in two seconds, with one copper left over. -/
def circuit : GameData where
  items := [
    .plain "copper_ore" .resource, .plain "iron_ore" .resource, .plain "copper" .material,
    .plain "iron" .material, .plain "circuit" .component, .building "smelter" .smelt 1,
    .building "assembler" .assemble 1]
  recipes := [
    ⟨[entry 0 1], [entry 2 1], ⟨5⟩, 1⟩,
    ⟨[entry 1 1], [entry 3 1], ⟨5⟩, 1⟩,
    ⟨[entry 3 1, entry 2 1], [entry 4 2], ⟨6⟩, 1⟩,
    ⟨[entry 3 2], [entry 4 1, entry 2 1], ⟨6⟩, 2⟩]
  starting := [⟨0⟩, ⟨1⟩]
  sound := by decide +kernel

/-- Alpha is made from beta and beta from alpha; gamma is made from alpha. -/
def cyclic : GameData where
  items := [
    .plain "alpha" .material, .plain "beta" .material, .plain "gamma" .product,
    .building "plant" .chemical 1]
  recipes := [
    ⟨[entry 1 1], [entry 0 1], ⟨3⟩, 1⟩,
    ⟨[entry 0 1], [entry 1 1], ⟨3⟩, 1⟩,
    ⟨[entry 0 1], [entry 2 1], ⟨3⟩, 1⟩]
  starting := []
  sound := by decide +kernel

end Samples
end ProductionRates
