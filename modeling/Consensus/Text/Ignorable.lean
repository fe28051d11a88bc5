import Consensus.Text.Runs

/-! # Ignorable characters

An ignorable character shows nothing where it is not specially treated: joiners,
direction marks, fillers and variation selectors. Most of them are no printable
characters either, but fillers are letters. The table is that of Unicode 17.
-/

namespace Consensus.Text

/-- The codes with the property Default_Ignorable_Code_Point. -/
def ignorable : Runs :=
  [ (0xAD, 0xAD), (0x34F, 0x34F), (0x61C, 0x61C), (0x115F, 0x1160), (0x17B4, 0x17B5),
    (0x180B, 0x180F), (0x200B, 0x200F), (0x202A, 0x202E), (0x2060, 0x206F), (0x3164, 0x3164),
    (0xFE00, 0xFE0F), (0xFEFF, 0xFEFF), (0xFFA0, 0xFFA0), (0xFFF0, 0xFFF8), (0x1BCA0, 0x1BCA3),
    (0x1D173, 0x1D17A), (0xE0000, 0xE0FFF) ]

example : ignorable.AscendingFrom 0 := by decide +kernel

example : ignorable.size = 4174 := by decide +kernel

/-- The character shows nothing of itself. -/
def isIgnorable (c : Char) : Bool := ignorable.contains c.toNat

example : isIgnorable '\u200b' ∧ isIgnorable '\u3164' ∧ ¬isIgnorable ' ' := by decide +kernel

end Consensus.Text
