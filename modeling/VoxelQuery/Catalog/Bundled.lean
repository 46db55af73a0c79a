import VoxelQuery.Catalog.Basic

/-! The catalog that comes with the library: a small landscape of soils, plants and liquids. -/
namespace VoxelQuery.Catalog

def bundled : Catalog where
  defaultNamespace := "core"
  tagPrefixes := ["", "custom.", "core."]
  defaultProperty := "variant"
  fillBlock := "core:air"
  materials :=
    ["air", "water", "lava", "rock", "ground", "grass", "sand", "clay", "wood", "leaves",
     "plants", "vine", "ice", "snow", "cactus"]
  typeTags := [
    ⟨"core.Block", none⟩,
    ⟨"core.Air", some "core.Block"⟩,
    ⟨"core.Liquid", some "core.Block"⟩,
    ⟨"core.Stone", some "core.Block"⟩,
    ⟨"core.Dirt", some "core.Block"⟩,
    ⟨"core.Grass", some "core.Block"⟩,
    ⟨"core.Sand", some "core.Block"⟩,
    ⟨"core.Log", some "core.Block"⟩,
    ⟨"core.Leaves", some "core.Block"⟩,
    ⟨"core.Bush", some "core.Block"⟩,
    ⟨"core.Flower", some "core.Bush"⟩,
    ⟨"core.Sapling", some "core.Bush"⟩,
    ⟨"core.Vine", some "core.Block"⟩,
    ⟨"custom.Leaves", some "core.Leaves"⟩,
    ⟨"custom.Grass", some "core.Grass"⟩,
    ⟨"custom.Flower", some "core.Flower"⟩]
  blocks := [
    ⟨"core:air", "core.Air", "air", some true⟩,
    ⟨"core:water", "core.Liquid", "water", none⟩,
    ⟨"core:lava", "core.Liquid", "lava", none⟩,
    ⟨"core:stone", "core.Stone", "rock", none⟩,
    ⟨"core:gravel", "core.Block", "sand", none⟩,
    ⟨"core:dirt", "core.Dirt", "ground", none⟩,
    ⟨"core:farmland", "core.Dirt", "ground", none⟩,
    ⟨"core:grass", "core.Grass", "grass", none⟩,
    ⟨"core:mycelium", "core.Grass", "grass", none⟩,
    ⟨"core:sand", "core.Sand", "sand", none⟩,
    ⟨"core:clay", "core.Block", "clay", none⟩,
    ⟨"core:ice", "core.Block", "ice", none⟩,
    ⟨"core:snow_layer", "core.Block", "snow", none⟩,
    ⟨"core:cactus", "core.Block", "cactus", none⟩,
    ⟨"core:log", "core.Log", "wood", none⟩,
    ⟨"core:leaves", "core.Leaves", "leaves", none⟩,
    ⟨"core:sapling", "core.Sapling", "plants", none⟩,
    ⟨"core:tallgrass", "core.Bush", "vine", none⟩,
    ⟨"core:red_flower", "core.Flower", "plants", none⟩,
    ⟨"core:vine", "core.Vine", "vine", none⟩,
    ⟨"custom:redwood_log", "core.Log", "wood", none⟩,
    ⟨"custom:redwood_leaves", "custom.Leaves", "leaves", none⟩,
    ⟨"custom:loamy_grass", "custom.Grass", "grass", none⟩,
    ⟨"custom:loamy_dirt", "core.Dirt", "ground", none⟩,
    ⟨"custom:wildflower", "custom.Flower", "plants", none⟩]
  queries := [
    ⟨"fertile", some "Soil that supports plants.",
      "grass,mycelium,%Grass,%Dirt"⟩,
    ⟨"surface", some "Blocks that form the natural ground surface.",
      "@fertile,sand,gravel,clay"⟩,
    ⟨"replaceable", some "Blocks a generated tree may overwrite.",
      "~air,~leaves,~plants,~vine,~snow"⟩,
    ⟨"waterside", some "Fertile or sandy ground next to water.",
      "@fertile @hasWater,sand @hasWater"⟩,
    ⟨"treeRoot", some "Fertile ground with room to grow.",
      "@fertile @airAbove"⟩]

end VoxelQuery.Catalog
