/-
  STRINGS OF THE PROGRAM — what a `char *` points to, the memory around it, and the word that ends a
  conversation.
-/
import AdhocNode.Lib.CStr

namespace AdhocNode

open CMem

/-- A string: the bytes in front of its NUL. -/
structure CString where
  bytes : List UInt8
  noNul : 0 ∉ bytes
  deriving DecidableEq

/-- The memory around a pointer. -/
abbrev Around := Int → UInt8

/-- "end" -/
def endText : List UInt8 := [101, 110, 100]

/-- `strncmp(text, "end", 3) == 0`, for a string with these bytes. -/
def isEnd (text : List UInt8) : Bool := text.take 3 = endText

/-- The same comparison in memory. -/
theorem slice_eq_endText_iff {cap : Nat} {m : Mem} {text : List UInt8} (h : m.IsStr cap text) :
    m.slice 0 3 = endText ↔ isEnd text = true := by
  have hlit : m.slice 0 endText.length = endText ↔ text.take endText.length = endText :=
    Mem.slice_eq_iff h.holds (by decide)
  exact hlit.trans decide_eq_true_iff.symm

end AdhocNode
