/-
  FILES — a stream of C with one position for reading and writing.

  `fgets` takes the line behind the position (`line`): up to and with its newline, or as much of it as
  the buffer holds.  `fseek` with `SEEK_CUR` moves the position, `fwrite` overwrites what lies behind
  it and lengthens the file where nothing does.

  `File.split a x` is the file `a ++ x` with the position between `a` and `x`; on it each operation is
  one equation.  A line that has been read, and is read again with other bytes behind it, is the same
  line (`line_append`), and whether it begins with a key is seen in it (`prefix_line_iff`).

  `pieces n x` is what the calls of `fgets` give until the end: a short line is a piece
  (`pieces_terminated`), a long one is cut (`pieces_cut`).  There are at least as many pieces as lines
  (`length_le_pieces`).
-/
import Mathlib.Data.List.Basic

namespace CFile

/-- `'\n'` -/
def newline : UInt8 := 10

/-- The first line: up to and with its newline, and of at most `n` bytes. -/
def line : Nat → List UInt8 → List UInt8
  | 0, _ => []
  | _ + 1, [] => []
  | n + 1, b :: x => if b = newline then [b] else b :: line n x

/-- An open file: its bytes and the position. -/
structure File where
  bytes : List UInt8
  pos : Nat

namespace File

/-- `fopen(name, "r+")`: the position is at the start. -/
def fopen (content : List UInt8) : File := ⟨content, 0⟩

/-- `fgets(buf, n, fp)`, for `n > 1`: the bytes that are read, or `none` (`NULL`) at the end. -/
def fgets (n : Nat) (f : File) : Option (List UInt8 × File) :=
  match f.bytes.drop f.pos with
  | [] => none
  | b :: x => some (line (n - 1) (b :: x), { f with pos := f.pos + (line (n - 1) (b :: x)).length })

/-- `fseek(fp, off, SEEK_CUR)`; a position before the start is refused. -/
def seekCur (off : Int) (f : File) : File :=
  if 0 ≤ f.pos + off then { f with pos := (f.pos + off).toNat } else f

/-- `fwrite` of a list of bytes; a gap between the end of the file and the position is filled. -/
def fwrite (bs : List UInt8) (f : File) : File :=
  if bs = [] then f
  else ⟨(f.bytes ++ List.replicate (f.pos - f.bytes.length) 0).take f.pos ++ bs ++
    f.bytes.drop (f.pos + bs.length), f.pos + bs.length⟩

/-- The position lies between `a` and `x`. -/
def split (a x : List UInt8) : File := ⟨a ++ x, a.length⟩

end File

variable {n : Nat} {x y k l : List UInt8}

/-! ## Lines -/

theorem line_append_drop (n : Nat) (x : List UInt8) : line n x ++ x.drop (line n x).length = x := by
  fun_induction line n x with
  | case1 => rfl
  | case2 => rfl
  | case3 n x => rfl
  | case4 n b x hb ih => exact congrArg (b :: ·) ih

theorem line_ne_nil (hn : 0 < n) (hx : x ≠ []) : line n x ≠ [] := by
  fun_cases line n x with
  | case1 => exact absurd hn (Nat.lt_irrefl 0)
  | case2 => exact hx
  | case3 n x => exact List.cons_ne_nil newline []
  | case4 n b x hb => exact List.cons_ne_nil b _

theorem length_line_le (n : Nat) (x : List UInt8) : (line n x).length ≤ n := by
  fun_induction line n x with
  | case1 => exact Nat.le_refl 0
  | case2 n => exact Nat.zero_le _
  | case3 n x => exact Nat.succ_le_succ (Nat.zero_le n)
  | case4 n b x hb ih => exact Nat.succ_le_succ ih

/-- A line that something lies behind ends there, whatever comes behind it instead. -/
theorem line_append (h : x.drop (line n x).length ≠ [] ∨ y = []) :
    line n (line n x ++ y) = line n x := by
  fun_induction line n x with
  | case1 => rfl
  | case2 n =>
    rcases h with h | rfl
    · exact absurd rfl h
    · rfl
  | case3 n x => exact if_pos rfl
  | case4 n b x hb ih =>
    show (if b = newline then [b] else b :: line n (line n x ++ y)) = _
    rw [if_neg hb, ih h]

/-- A short line is read with its newline. -/
theorem line_terminated (hl : newline ∉ l) (h : l.length < n) (x : List UInt8) :
    line n (l ++ newline :: x) = l ++ [newline] := by
  induction l generalizing n with
  | nil =>
    cases n with
    | zero => exact absurd h (Nat.lt_irrefl 0)
    | succ n => exact if_pos rfl
  | cons b l ih =>
    rw [List.mem_cons, not_or] at hl
    cases n with
    | zero => exact absurd h (Nat.not_lt_zero _)
    | succ n =>
      show (if b = newline then [b] else b :: line n (l ++ newline :: x)) = _
      rw [if_neg (Ne.symm hl.1), ih hl.2 (Nat.lt_of_succ_lt_succ h)]
      rfl

/-- A long line is cut, and so is what no newline ends. -/
theorem line_cut (hl : newline ∉ l) (h : n ≤ l.length ∨ x = []) : line n (l ++ x) = l.take n := by
  induction l generalizing n with
  | nil =>
    cases n with
    | zero => rfl
    | succ n =>
      rcases h with h | rfl
      · exact absurd h (Nat.not_succ_le_zero n)
      · rfl
  | cons b l ih =>
    rw [List.mem_cons, not_or] at hl
    cases n with
    | zero => rfl
    | succ n =>
      show (if b = newline then [b] else b :: line n (l ++ x)) = b :: l.take n
      rw [if_neg (Ne.symm hl.1), ih hl.2 (h.imp Nat.le_of_succ_le_succ id)]

/-- What begins with a key is seen in the line. -/
theorem prefix_line_iff (hk : newline ∉ k) (h : k.length ≤ n) : k <+: line n x ↔ k <+: x := by
  induction k generalizing n x with
  | nil => exact iff_of_true (List.nil_prefix) (List.nil_prefix)
  | cons c k ih =>
    rw [List.mem_cons, not_or] at hk
    cases n with
    | zero => exact absurd h (Nat.not_succ_le_zero _)
    | succ n =>
      cases x with
      | nil => exact Iff.rfl
      | cons b x =>
        show c :: k <+: (if b = newline then [b] else b :: line n x) ↔ _
        by_cases hb : b = newline
        · rw [if_pos hb, List.cons_prefix_cons, List.cons_prefix_cons]
          have hne : c ≠ b := fun heq => hk.1 (heq.trans hb).symm
          exact iff_of_false (fun hpre => hne hpre.1) (fun hpre => hne hpre.1)
        · rw [if_neg hb, List.cons_prefix_cons, List.cons_prefix_cons,
            ih hk.2 (Nat.le_of_succ_le_succ h)]

/-! ## Line by line -/

/-- What `fgets` reads, of at most `n` bytes each, until the end. -/
def pieces (n : Nat) (x : List UInt8) : List (List UInt8) :=
  if n = 0 ∨ x = [] then [] else line n x :: pieces n (x.drop (line n x).length)
termination_by x.length
decreasing_by
  obtain ⟨hn, hx⟩ := not_or.1 ‹¬(n = 0 ∨ x = [])›
  have hline := List.length_pos_iff.2 (line_ne_nil (Nat.pos_of_ne_zero hn) hx)
  have hlen := List.length_pos_iff.2 hx
  rw [List.length_drop]
  omega

@[simp] theorem pieces_nil (n : Nat) : pieces n [] = [] := by
  rw [pieces, if_pos (Or.inr rfl)]

theorem pieces_of_ne_nil (hn : 0 < n) (hx : x ≠ []) :
    pieces n x = line n x :: pieces n (x.drop (line n x).length) := by
  rw [pieces, if_neg (not_or.2 ⟨Nat.ne_of_gt hn, hx⟩)]

/-- A short line is a piece, -/
theorem pieces_terminated (hl : newline ∉ l) (h : l.length < n) (x : List UInt8) :
    pieces n (l ++ newline :: x) = (l ++ [newline]) :: pieces n x := by
  have hne : l ++ newline :: x ≠ [] := List.append_ne_nil_of_right_ne_nil l (List.cons_ne_nil _ x)
  rw [pieces_of_ne_nil (Nat.zero_lt_of_lt h) hne, line_terminated hl h, List.append_cons l newline x,
    List.drop_left]

/-- a long one is cut. -/
theorem pieces_cut (hl : newline ∉ l) (hn : 0 < n) (h : n ≤ l.length) (x : List UInt8) :
    pieces n (l ++ newline :: x) = l.take n :: pieces n (l.drop n ++ newline :: x) := by
  have hne : l ++ newline :: x ≠ [] := List.append_ne_nil_of_right_ne_nil l (List.cons_ne_nil _ x)
  rw [pieces_of_ne_nil hn hne, line_cut hl (Or.inl h), List.length_take_of_le h,
    List.drop_append_of_le_length h]

theorem pieces_unterminated (hl : newline ∉ l) (hn : 0 < n) (hne : l ≠ []) :
    pieces n l = l.take n :: pieces n (l.drop n) := by
  have hline : line n l = l.take n := by
    have hcut : line n (l ++ []) = l.take n := line_cut hl (Or.inr rfl)
    rwa [List.append_nil] at hcut
  have hdrop : l.drop (l.take n).length = l.drop n := by
    rw [List.length_take]
    rcases Nat.le_total n l.length with h | h
    · rw [Nat.min_eq_left h]
    · rw [Nat.min_eq_right h, List.drop_length, List.drop_eq_nil_of_le h]
  rw [pieces_of_ne_nil hn hne, hline, hdrop]

/-- A line takes a piece at least. -/
theorem length_pieces_lt (hl : newline ∉ l) (hn : 0 < n) (x : List UInt8) :
    (pieces n x).length < (pieces n (l ++ newline :: x)).length := by
  induction hlen : l.length using Nat.strongRecOn generalizing l with
  | _ len ih =>
    rcases Nat.lt_or_ge l.length n with h | h
    · rw [pieces_terminated hl h, List.length_cons]
      exact Nat.lt_succ_self _
    · have hrest : newline ∉ l.drop n := fun hmem => hl (List.mem_of_mem_drop hmem)
      have hless : (l.drop n).length < len := by
        rw [List.length_drop]
        omega
      rw [pieces_cut hl hn h, List.length_cons]
      exact Nat.lt_succ_of_lt (ih _ hless hrest rfl)

/-- The lines, each with a newline, and what comes behind the last newline. -/
def unlines (lines : List (List UInt8)) (last : List UInt8) : List UInt8 :=
  lines.flatMap (· ++ [newline]) ++ last

@[simp] theorem unlines_nil (last : List UInt8) : unlines [] last = last := rfl

@[simp] theorem unlines_cons (lines : List (List UInt8)) (last : List UInt8) :
    unlines (l :: lines) last = l ++ newline :: unlines lines last := by
  rw [unlines, List.flatMap_cons, List.append_assoc, List.append_assoc]
  rfl

theorem length_le_pieces {lines : List (List UInt8)} {last : List UInt8}
    (hlines : ∀ l ∈ lines, newline ∉ l) (hlast : newline ∉ last) (hn : 0 < n) :
    (lines ++ if last = [] then [] else [last]).length ≤ (pieces n (unlines lines last)).length := by
  induction lines with
  | nil =>
    rw [unlines_nil, List.nil_append]
    by_cases hne : last = []
    · rw [if_pos hne]
      exact Nat.zero_le _
    · rw [if_neg hne, pieces_unterminated hlast hn hne, List.length_cons]
      exact Nat.succ_le_succ (Nat.zero_le _)
  | cons l lines ih =>
    rw [List.forall_mem_cons] at hlines
    have hmore := length_pieces_lt hlines.1 hn (unlines lines last)
    have hrest := ih hlines.2
    rw [unlines_cons, List.cons_append, List.length_cons]
    omega

/-! ## The operations at a position -/

namespace File

theorem fgets_split_nil (n : Nat) (a : List UInt8) : (split a []).fgets n = none := by
  have hdrop : (a ++ []).drop a.length = [] := List.drop_left
  show (match (a ++ []).drop a.length with | [] => none | b :: x => some (_, _)) = none
  rw [hdrop]

/-- A line is read: the position is behind it. -/
theorem fgets_split (n : Nat) (a : List UInt8) (hx : x ≠ []) :
    (split a x).fgets n = some (line (n - 1) x,
      split (a ++ line (n - 1) x) (x.drop (line (n - 1) x).length)) := by
  have hdrop : (split a x).bytes.drop (split a x).pos = x := List.drop_left
  have hjoin : (a ++ line (n - 1) x) ++ x.drop (line (n - 1) x).length = a ++ x := by
    rw [List.append_assoc, line_append_drop]
  rw [fgets, hdrop]
  cases x with
  | nil => exact absurd rfl hx
  | cons c x => rw [split, split, hjoin, List.length_append]

/-- The position is moved back over `b`. -/
theorem seekCur_split (a b x : List UInt8) :
    (split (a ++ b) x).seekCur (-b.length) = split a (b ++ x) := by
  have hpos : ((split (a ++ b) x).pos : Int) + -b.length = a.length := by
    show (((a ++ b).length : Nat) : Int) + -(b.length : Int) = a.length
    rw [List.length_append]
    omega
  rw [seekCur, hpos, if_pos (by omega), Int.toNat_natCast]
  show File.mk (a ++ b ++ x) a.length = _
  rw [List.append_assoc, split]

/-- What lies behind the position is overwritten. -/
theorem fwrite_split (bs a x : List UInt8) :
    (split a x).fwrite bs = split (a ++ bs) (x.drop bs.length) := by
  by_cases hbs : bs = []
  · subst hbs
    rw [fwrite, if_pos rfl, List.append_nil, List.length_nil, List.drop_zero]
  · have hgap : (split a x).pos - (split a x).bytes.length = 0 := by
      show a.length - (a ++ x).length = 0
      rw [List.length_append]
      omega
    rw [fwrite, if_neg hbs, hgap]
    show File.mk ((a ++ x ++ []).take a.length ++ bs ++ (a ++ x).drop (a.length + bs.length)) _ = _
    rw [List.append_nil, List.take_left, ← List.drop_drop, List.drop_left]
    show File.mk _ (a.length + bs.length) = File.mk _ (a ++ bs).length
    rw [List.length_append]

end File

end CFile
