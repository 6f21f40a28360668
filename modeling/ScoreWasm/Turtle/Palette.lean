/-!
# The turtle's blocks

The turtle works with the blocks of a palette, by their numbers, and keeps what it copied in a box of
the world, the clipboard.
-/

namespace ScoreWasm.Turtle

def palette : List String :=
  ["minecraft:air", "minecraft:stone", "minecraft:cobblestone", "minecraft:dirt",
   "minecraft:grass_block", "minecraft:oak_planks", "minecraft:glass", "minecraft:white_wool",
   "minecraft:red_wool", "minecraft:gold_block", "minecraft:diamond_block",
   "minecraft:redstone_block"]

/-- The three axes with the coordinates of the clipboard's lower corner. -/
def clipboard : List (String × Int) := [("x", 0), ("y", 256), ("z", 0)]

end ScoreWasm.Turtle
