/-
  READING LINES — `myfgets` of `src/common.c`.

  1. **The program** — `fgets` into the buffer, then the first newline of the string there becomes a
     NUL.  At the end of the file `fgets` leaves the buffer alone, and the caller is not told: it finds
     the string of the call before.

  2. **One call** (`myfgets_split`, `myfgets_end`) — the buffer holds what was read up to its first
     newline or NUL (`chomped`).

  3. **Cut lines** (`map_chomped_pieces`) — a line comes in parts of as many bytes as the buffer has
     beside the NUL, each part by a call of its own; of a part with a NUL what lies behind that is
     lost.

  4. **Lines** (`readsLines_iff`) — so the calls give the lines of a file, one each, iff these fit in
     the buffer and have no NUL.
-/
import AdhocNode.ConfFile
import AdhocNode.Lib.CStr
import Mathlib.Data.List.GetD

namespace AdhocNode

open CMem CFile

/-! ## The program -/

/-- What `fgets` stores: the bytes that were read, and a NUL. -/
def putLine (data : Mem) (got : List UInt8) : Mem := fun i =>
  if i ≤ got.length then got.getD i 0 else data i

/-- `fgets(data, n, fd)`.  Without room for a byte nothing is stored, with room for one a NUL is. -/
def fgetsInto (n : Int) (data : Mem) (fd : File) : Mem × File :=
  if n ≤ 0 then (data, fd)
  else if n = 1 then (putLine data [], fd)
  else match fd.fgets n.toNat with
    | none => (data, fd)
    | some (got, fd) => (putLine data got, fd)

/-- `find = strchr(data, '\n'); if (find) *find = '\0';`, on a buffer of `cnt` bytes. -/
def endAtNewline (cnt : Nat) (data : Mem) : Option Mem :=
  (data.strchr? newline 0 cnt).map fun find =>
    find.elim data fun nl i => if i = nl then 0 else data i

/-- `myfgets`, on a buffer of `cnt` bytes; `fgets` gets `cnt` as an `int`. -/
def myfgets (cnt : Nat) (data : Mem) (fd : File) : Option (Mem × File) :=
  let got := fgetsInto (toInt32 cnt) data fd
  (endAtNewline cnt got.1).map fun data => (data, got.2)

/-- A number of calls with one buffer: the string that is there after each. -/
def myfgetsRun (cnt : Nat) : Nat → Mem × File → Option (List (List UInt8) × Mem × File)
  | 0, s => some ([], s)
  | calls + 1, (data, fd) => do
    let (data, fd) ← myfgets cnt data fd
    let str ← data.str? 0 cnt
    let (strs, s) ← myfgetsRun cnt calls (data, fd)
    return (str :: strs, s)

/-! ## Lines -/

/-- A file: lines that a newline ends, and what comes behind the last newline. -/
structure TextFile where
  lines : List (List UInt8)
  last : List UInt8
  linesOk : ∀ l ∈ lines, newline ∉ l
  lastOk : newline ∉ last

/-- The first `k` parts of `n` bytes each. -/
def parts (n k : Nat) (l : List UInt8) : List (List UInt8) :=
  (List.range k).map fun i => (l.drop (i * n)).take n

/-- What a string function sees of some bytes. -/
def upToNul (l : List UInt8) : List UInt8 := l.takeWhile fun b => b ≠ 0

namespace TextFile

def bytes (f : TextFile) : List UInt8 := unlines f.lines f.last

/-- What a reader of lines should see. -/
def rows (f : TextFile) : List (List UInt8) :=
  f.lines ++ if f.last = [] then [] else [f.last]

/-- **Each call gives the next line**, inside of the buffer; behind the end it gives the last again. -/
def ReadsLines (cnt : Nat) (data : Mem) (f : TextFile) : Prop :=
  ∀ more, ∃ data', myfgetsRun cnt (f.rows.length + more) (data, File.fopen f.bytes) =
      some (f.rows ++ List.replicate more (f.rows.getLastD []), data', File.split f.bytes []) ∧
    ∀ i, cnt ≤ i → data' i = data i

/-- The lines cut into parts of `n` bytes: `L / n + 1` of them for a line of `L` bytes and its newline, and
    as many as it takes for what comes behind the last newline. -/
def cutRows (n : Nat) (f : TextFile) : List (List UInt8) :=
  f.lines.flatMap (fun l => parts n (l.length / n + 1) l) ++ parts n ((f.last.length + n - 1) / n) f.last

/-- **Each call gives the next part**, up to its first NUL, inside of the buffer; behind the end it gives
    the last again. -/
def ReadsParts (cnt : Nat) (data : Mem) (f : TextFile) : Prop :=
  ∀ more, ∃ data', myfgetsRun cnt ((f.cutRows (cnt - 1)).length + more) (data, File.fopen f.bytes) =
      some ((f.cutRows (cnt - 1)).map upToNul ++
          List.replicate more (((f.cutRows (cnt - 1)).map upToNul).getLastD []),
        data', File.split f.bytes []) ∧
    ∀ i, cnt ≤ i → data' i = data i

/-- The lines fit in `cnt` bytes with their newline and a NUL, what follows fits with a NUL, and
    nothing has a NUL. -/
structure Fits (cnt : Nat) (f : TextFile) : Prop where
  lines : ∀ l ∈ f.lines, 0 ∉ l ∧ l.length + 1 < cnt
  last : 0 ∉ f.last ∧ f.last.length < cnt

end TextFile

/-! ## What is left of a line -/

/-- The string that what was read leaves in the buffer. -/
def chomped (got : List UInt8) : List UInt8 := got.takeWhile fun b => b ≠ 0 ∧ b ≠ newline

section

variable {got l : List UInt8}

/-- What is left has no newline and no NUL. -/
theorem plain_chomped (got : List UInt8) : Plain (chomped got) := by
  intro b hb
  have hkeep := List.mem_takeWhile_imp (p := fun b => decide (b ≠ 0 ∧ b ≠ newline)) hb
  exact of_decide_eq_true hkeep

theorem length_chomped_le (got : List UInt8) : (chomped got).length ≤ got.length :=
  (List.takeWhile_prefix _).length_le

theorem chomped_of_plain (h : Plain l) : chomped l = l :=
  List.takeWhile_eq_self_iff.2 fun b hb => decide_eq_true (h b hb)

/-- A line loses its newline. -/
theorem chomped_append_newline (h : Plain l) : chomped (l ++ [newline]) = l := by
  have hall : ∀ b ∈ l, decide (b ≠ 0 ∧ b ≠ newline) = true := fun b hb => decide_eq_true (h b hb)
  rw [chomped, List.takeWhile_append_of_pos hall]
  exact List.append_nil l

/-- A piece without a newline is cut only at a NUL. -/
theorem chomped_of_noNewline (h : newline ∉ l) : chomped l = upToNul l := by
  induction l with
  | nil => rfl
  | cons b l ih =>
    rw [List.mem_cons, not_or] at h
    have hne : b ≠ newline := Ne.symm h.1
    have hcons : ∀ {q : UInt8 → Bool}, (b :: l).takeWhile q = if q b then b :: l.takeWhile q else [] :=
      List.takeWhile_cons
    have hbit : decide (b ≠ 0 ∧ b ≠ newline) = decide (b ≠ 0) := by simp [hne]
    rw [chomped, upToNul, hcons, hcons, hbit]
    exact if_congr Iff.rfl (congrArg (b :: ·) (ih h.2)) rfl

theorem chomped_append_newline_of_noNewline (h : newline ∉ l) : chomped (l ++ [newline]) = upToNul l := by
  rw [← chomped_of_noNewline h, chomped, List.takeWhile_append]
  split
  · rename_i hall
    exact (List.append_nil l).trans ((List.takeWhile_prefix _).eq_of_length hall).symm
  · rfl

/-- The bytes that are left are those at the same places. -/
theorem getD_chomped {i : Nat} (hi : i < (chomped got).length) :
    got.getD i 0 = (chomped got).getD i 0 := by
  rcases List.takeWhile_prefix (l := got) fun b => decide (b ≠ 0 ∧ b ≠ newline) with ⟨rest, hrest⟩
  change chomped got ++ rest = got at hrest
  calc got.getD i 0 = (chomped got ++ rest).getD i 0 := by rw [hrest]
    _ = (chomped got).getD i 0 := List.getD_append _ _ _ _ hi

/-- Behind it comes the newline, or a NUL. -/
theorem getD_length_chomped (got : List UInt8) :
    got.getD (chomped got).length 0 = newline ∨ got.getD (chomped got).length 0 = 0 := by
  have hsplit : chomped got ++ got.dropWhile (fun b => decide (b ≠ 0 ∧ b ≠ newline)) = got :=
    List.takeWhile_append_dropWhile
  have hbyte : got.getD (chomped got).length 0 =
      (got.dropWhile fun b => decide (b ≠ 0 ∧ b ≠ newline)).getD 0 0 := by
    calc got.getD (chomped got).length 0
        = (chomped got ++ got.dropWhile _).getD (chomped got).length 0 := by rw [hsplit]
      _ = _ := by rw [List.getD_append_right _ _ _ _ (Nat.le_refl _), Nat.sub_self]
  have hhead := List.head?_dropWhile_not (fun b => decide (b ≠ 0 ∧ b ≠ newline)) got
  rw [hbyte]
  cases hrest : got.dropWhile fun b => decide (b ≠ 0 ∧ b ≠ newline) with
  | nil => exact Or.inr rfl
  | cons b rest =>
    rw [hrest] at hhead
    have hnot : ¬(b ≠ 0 ∧ b ≠ newline) := of_decide_eq_false hhead
    show b = newline ∨ b = 0
    by_cases h0 : b = 0
    · exact Or.inr h0
    · exact Or.inl (Classical.byContradiction fun hn => hnot ⟨h0, hn⟩)

end

/-! ## One call -/

section

variable {cnt : Nat} {data : Mem} {a x str : List UInt8}

/-- The first newline becomes a NUL; where a NUL comes before it, it is stored again. -/
theorem endAtNewline_of_stop (hstr : Plain str)
    (hread : ∀ i, i < str.length → data i = str.getD i 0)
    (hstop : data str.length = newline ∨ data str.length = 0) (hcap : str.length < cnt) :
    endAtNewline cnt data = some fun i => if i = str.length then 0 else data i := by
  have hfind : data.strchr? newline 0 cnt =
      some (if data (0 + str.length) = newline then some (0 + str.length) else none) :=
    Mem.strchr?_of_stop hstr (fun i hi => by rw [Nat.zero_add, hread i hi])
      (by rwa [Nat.zero_add]) hcap
  rw [Nat.zero_add] at hfind
  rw [endAtNewline, hfind, Option.map_some]
  by_cases hn : data str.length = newline
  · rw [if_pos hn]
    rfl
  · rw [if_neg hn]
    congr 1
    funext i
    by_cases hi : i = str.length
    · rw [if_pos hi, hi]
      exact hstop.resolve_left hn
    · rw [if_neg hi]
      rfl

theorem myfgets_eq {data' : Mem} {fd fd' : File}
    (hget : fgetsInto (toInt32 cnt) data fd = (data', fd')) :
    myfgets cnt data fd = (endAtNewline cnt data').map fun data => (data, fd') := by
  rw [myfgets, hget]

/-- **A call before the end** reads a line, and leaves the string of it, inside of the buffer. -/
theorem myfgets_split (h1 : 1 < cnt) (h2 : cnt < 2 ^ 31) (hx : x ≠ []) (data : Mem)
    (a : List UInt8) : ∃ data', myfgets cnt data (File.split a x) = some (data',
        File.split (a ++ line (cnt - 1) x) (x.drop (line (cnt - 1) x).length)) ∧
      data'.IsStr cnt (chomped (line (cnt - 1) x)) ∧ ∀ i, cnt ≤ i → data' i = data i := by
  have hint : toInt32 cnt = cnt := toInt32_of_lt (by omega) (by omega)
  have hget : fgetsInto (toInt32 cnt) data (File.split a x) = (putLine data (line (cnt - 1) x),
      File.split (a ++ line (cnt - 1) x) (x.drop (line (cnt - 1) x).length)) := by
    rw [hint, fgetsInto, if_neg (by omega), if_neg (by omega), Int.toNat_natCast,
      File.fgets_split cnt a hx]
  have hlen : (line (cnt - 1) x).length ≤ cnt - 1 := length_line_le _ _
  have hshort : (chomped (line (cnt - 1) x)).length ≤ (line (cnt - 1) x).length :=
    length_chomped_le _
  have hbyte : ∀ i, i ≤ (line (cnt - 1) x).length →
      putLine data (line (cnt - 1) x) i = (line (cnt - 1) x).getD i 0 := fun i hi => if_pos hi
  have hend : endAtNewline cnt (putLine data (line (cnt - 1) x)) = some fun i =>
      if i = (chomped (line (cnt - 1) x)).length then 0 else putLine data (line (cnt - 1) x) i := by
    apply endAtNewline_of_stop (plain_chomped _)
    · intro i hi
      rw [hbyte i (by omega), getD_chomped hi]
    · rw [hbyte _ hshort]
      exact getD_length_chomped _
    · omega
  refine ⟨_, by rw [myfgets_eq hget, hend, Option.map_some], ?_, ?_⟩
  · refine ⟨fun i hi => ?_, (plain_chomped _).noNul, by omega⟩
    rw [Nat.zero_add]
    by_cases hi' : i = (chomped (line (cnt - 1) x)).length
    · rw [if_pos hi', hi', List.getD_eq_default _ _ (Nat.le_refl _)]
    · rw [if_neg hi', hbyte i (by omega), getD_chomped (by omega)]
  · intro i hi
    show (if i = _ then 0 else if i ≤ _ then _ else data i) = data i
    rw [if_neg (by omega), if_neg (by omega)]

/-- **A call at the end** changes nothing. -/
theorem myfgets_end (h1 : 1 < cnt) (h2 : cnt < 2 ^ 31) (hdata : data.IsStr cnt str)
    (hstr : Plain str) (a : List UInt8) :
    myfgets cnt data (File.split a []) = some (data, File.split a []) := by
  have hint : toInt32 cnt = cnt := toInt32_of_lt (by omega) (by omega)
  have hget : fgetsInto (toInt32 cnt) data (File.split a []) = (data, File.split a []) := by
    rw [hint, fgetsInto, if_neg (by omega), if_neg (by omega), Int.toNat_natCast,
      File.fgets_split_nil]
  have hread : ∀ i, i ≤ str.length → data i = str.getD i 0 := by
    intro i hi
    rw [← hdata.holds i hi, Nat.zero_add]
  have hnul : data str.length = 0 := by
    rw [hread _ (Nat.le_refl _), List.getD_eq_default _ _ (Nat.le_refl _)]
  have hsame : (fun i => if i = str.length then 0 else data i) = data := by
    funext i
    by_cases hi : i = str.length
    · rw [if_pos hi, hi, hnul]
    · rw [if_neg hi]
  have hend := endAtNewline_of_stop hstr (fun i hi => hread i (Nat.le_of_lt hi)) (Or.inr hnul)
    hdata.short
  rw [hsame] at hend
  rw [myfgets_eq hget, hend, Option.map_some]

end

/-! ## The calls -/

section

variable {cnt calls : Nat} {data data' : Mem} {a x str : List UInt8} {strs : List (List UInt8)}

/-- One call more leaves one string more. -/
theorem myfgetsRun_succ {fd fd' : File} (hcall : myfgets cnt data fd = some (data', fd'))
    (hstr : data'.IsStr cnt str) (calls : Nat) : myfgetsRun cnt (calls + 1) (data, fd) =
      (myfgetsRun cnt calls (data', fd')).map fun r => (str :: r.1, r.2) := by
  have hread : data'.str? 0 cnt = some str := Mem.str?_of_holds hstr.holds hstr.noNul hstr.short
  show (myfgets cnt data fd).bind _ = _
  rw [hcall, Option.bind_some]
  show (data'.str? 0 cnt).bind _ = _
  rw [hread, Option.bind_some]
  cases myfgetsRun cnt calls (data', fd') with
  | none => rfl
  | some r => rfl

/-- Behind the end the string is the same, over and over. -/
theorem myfgetsRun_end (h1 : 1 < cnt) (h2 : cnt < 2 ^ 31) (hdata : data.IsStr cnt str)
    (hstr : Plain str) (a : List UInt8) (calls : Nat) :
    myfgetsRun cnt calls (data, File.split a []) =
      some (List.replicate calls str, data, File.split a []) := by
  induction calls with
  | zero => rfl
  | succ calls ih =>
    rw [myfgetsRun_succ (myfgets_end h1 h2 hdata hstr a) hdata, ih, Option.map_some,
      List.replicate_succ]

/-- **The calls give the pieces of the file**, one each, and then the last one again. -/
theorem myfgetsRun_pieces (h1 : 1 < cnt) (h2 : cnt < 2 ^ 31)
    (hend : x = [] → data.IsStr cnt str ∧ Plain str) (a : List UInt8) (more : Nat) :
    ∃ data', myfgetsRun cnt ((pieces (cnt - 1) x).length + more) (data, File.split a x) =
        some ((pieces (cnt - 1) x).map chomped ++
            List.replicate more (((pieces (cnt - 1) x).map chomped).getLastD str),
          data', File.split (a ++ x) []) ∧
      ∀ i, cnt ≤ i → data' i = data i := by
  induction hlen : x.length using Nat.strongRecOn generalizing x data a str with
  | _ len ih =>
    by_cases hx : x = []
    · rw [hx, pieces_nil, List.append_nil]
      refine ⟨data, ?_, fun i _ => rfl⟩
      rw [List.length_nil, Nat.zero_add, myfgetsRun_end h1 h2 (hend hx).1 (hend hx).2]
      rfl
    · rcases myfgets_split h1 h2 hx data a with ⟨data', hcall, hdata', hout⟩
      have hless : (x.drop (line (cnt - 1) x).length).length < len := by
        have hline := List.length_pos_iff.2 (line_ne_nil (n := cnt - 1) (by omega) hx)
        have hpos := List.length_pos_iff.2 hx
        rw [List.length_drop]
        omega
      rcases ih _ hless (fun _ => ⟨hdata', plain_chomped _⟩) (a ++ line (cnt - 1) x) rfl with
        ⟨data'', hrun, hout'⟩
      rw [List.append_assoc, line_append_drop] at hrun
      refine ⟨data'', ?_, fun i hi => by rw [hout' i hi, hout i hi]⟩
      rw [pieces_of_ne_nil (by omega) hx, List.length_cons, List.map_cons, List.getLastD_cons,
        Nat.add_right_comm, myfgetsRun_succ hcall hdata', hrun, Option.map_some, List.cons_append]

/-- The calls on a file that has just been opened. -/
theorem myfgetsRun_fopen (h1 : 1 < cnt) (h2 : cnt < 2 ^ 31) (hx : x ≠ []) (data : Mem)
    (more : Nat) : ∃ data',
      myfgetsRun cnt ((pieces (cnt - 1) x).length + more) (data, File.fopen x) =
        some ((pieces (cnt - 1) x).map chomped ++
            List.replicate more (((pieces (cnt - 1) x).map chomped).getLastD []),
          data', File.split x []) ∧
      ∀ i, cnt ≤ i → data' i = data i :=
  myfgetsRun_pieces h1 h2 (fun hnil => absurd hnil hx) [] more

/-- The end takes as many calls. -/
theorem length_pieces_le_calls (h1 : 1 < cnt) (h2 : cnt < 2 ^ 31)
    (hrun : myfgetsRun cnt calls (data, File.split a x) = some (strs, data', File.split (a ++ x) [])) :
    (pieces (cnt - 1) x).length ≤ calls := by
  induction calls generalizing data a x strs with
  | zero =>
    have hpos : a.length = (a ++ x).length :=
      congrArg (fun r => r.2.2.pos) (Option.some.inj hrun)
    have hx : x = [] := by
      rw [List.length_append] at hpos
      exact List.eq_nil_of_length_eq_zero (by omega)
    rw [hx, pieces_nil]
    exact Nat.le_refl 0
  | succ calls ih =>
    by_cases hx : x = []
    · rw [hx, pieces_nil]
      exact Nat.zero_le _
    · rcases myfgets_split h1 h2 hx data a with ⟨data₁, hcall, hdata₁, hout⟩
      rw [myfgetsRun_succ hcall hdata₁, Option.map_eq_some_iff] at hrun
      rcases hrun with ⟨⟨strs', data₂, fd⟩, hrest, heq⟩
      cases heq
      have hsame : a ++ x = a ++ line (cnt - 1) x ++ x.drop (line (cnt - 1) x).length := by
        rw [List.append_assoc, line_append_drop]
      rw [hsame] at hrest
      rw [pieces_of_ne_nil (by omega) hx, List.length_cons]
      exact Nat.succ_le_succ (ih hrest)

end

/-! ## Cut lines -/

section

variable {n : Nat} {l : List UInt8}

/-- The first part is what the first call reads, and the others are the parts of the rest. -/
theorem parts_succ (n k : Nat) (l : List UInt8) : parts n (k + 1) l = l.take n :: parts n k (l.drop n) := by
  unfold parts
  rw [List.range_succ_eq_map, List.map_cons, List.map_map, Nat.zero_mul, List.drop_zero]
  refine congrArg (l.take n :: ·) (List.map_congr_left fun i _ => ?_)
  show (l.drop ((i + 1) * n)).take n = _
  rw [List.drop_drop, Nat.succ_mul, Nat.add_comm]

/-- The parts of a line that a newline ends. -/
theorem map_chomped_terminated (hl : newline ∉ l) (hn : 0 < n) (x : List UInt8) :
    (pieces n (l ++ newline :: x)).map chomped =
      (parts n (l.length / n + 1) l).map upToNul ++ (pieces n x).map chomped := by
  induction hlen : l.length using Nat.strongRecOn generalizing l with
  | _ len ih =>
    subst hlen
    rcases Nat.lt_or_ge l.length n with hshort | hlong
    · rw [pieces_terminated hl hshort, Nat.div_eq_of_lt hshort, parts_succ,
        List.take_of_length_le (Nat.le_of_lt hshort), List.map_cons,
        chomped_append_newline_of_noNewline hl]
      rfl
    · have hrest : newline ∉ l.drop n := fun hmem => hl (List.mem_of_mem_drop hmem)
      have htake : newline ∉ l.take n := fun hmem => hl (List.mem_of_mem_take hmem)
      have hless : (l.drop n).length < l.length := by
        rw [List.length_drop]
        omega
      have hcount : l.length / n = (l.drop n).length / n + 1 := by
        rw [List.length_drop, Nat.div_eq_sub_div hn hlong]
      rw [pieces_cut hl hn hlong, hcount, parts_succ, List.map_cons, ih _ hless hrest rfl,
        List.map_cons, chomped_of_noNewline htake, List.cons_append]

/-- The parts of what no newline ends. -/
theorem map_chomped_unterminated (hl : newline ∉ l) (hn : 0 < n) :
    (pieces n l).map chomped = (parts n ((l.length + n - 1) / n) l).map upToNul := by
  induction hlen : l.length using Nat.strongRecOn generalizing l with
  | _ len ih =>
    subst hlen
    by_cases hne : l = []
    · rw [hne, pieces_nil, Nat.div_eq_of_lt (by simp; omega)]
      rfl
    · have hpos := List.length_pos_iff.2 hne
      have hrest : newline ∉ l.drop n := fun hmem => hl (List.mem_of_mem_drop hmem)
      have htake : newline ∉ l.take n := fun hmem => hl (List.mem_of_mem_take hmem)
      have hless : (l.drop n).length < l.length := by
        rw [List.length_drop]
        omega
      have hcount : (l.length + n - 1) / n = ((l.drop n).length + n - 1) / n + 1 := by
        rw [List.length_drop, Nat.div_eq_sub_div hn (show n ≤ l.length + n - 1 by omega)]
        rcases Nat.le_total n l.length with hlong | hshort
        · rw [show l.length - n + n - 1 = l.length + n - 1 - n by omega]
        · rw [Nat.div_eq_of_lt (show l.length + n - 1 - n < n by omega),
            Nat.div_eq_of_lt (show l.length - n + n - 1 < n by omega)]
      rw [pieces_unterminated hl hn hne, hcount, parts_succ, List.map_cons, ih _ hless hrest rfl,
        List.map_cons, chomped_of_noNewline htake]

/-- **What the calls give of a file** are the parts of its lines. -/
theorem TextFile.map_chomped_pieces (hn : 0 < n) (f : TextFile) :
    (pieces n f.bytes).map chomped = (f.cutRows n).map upToNul := by
  have hlines : ∀ lines : List (List UInt8), (∀ l ∈ lines, newline ∉ l) →
      (pieces n (unlines lines f.last)).map chomped =
        (lines.flatMap (fun l => parts n (l.length / n + 1) l) ++
          parts n ((f.last.length + n - 1) / n) f.last).map upToNul := by
    intro lines hlines
    induction lines with
    | nil => exact map_chomped_unterminated f.lastOk hn
    | cons l lines ih =>
      rw [List.forall_mem_cons] at hlines
      rw [unlines_cons, map_chomped_terminated hlines.1 hn, ih hlines.2, List.flatMap_cons,
        List.append_assoc]
      exact List.map_append.symm
  exact hlines f.lines f.linesOk

end

/-! ## Lines -/

section

variable {n : Nat} {lines : List (List UInt8)} {last : List UInt8}

/-- **The pieces are the lines** iff these are short and have no NUL. -/
theorem map_chomped_pieces_iff (hlines : ∀ l ∈ lines, newline ∉ l) (hlast : newline ∉ last)
    (hn : 0 < n) : (pieces n (unlines lines last)).map chomped =
        lines ++ (if last = [] then [] else [last]) ↔
      (∀ l ∈ lines, 0 ∉ l ∧ l.length < n) ∧ 0 ∉ last ∧ last.length ≤ n := by
  induction lines with
  | nil =>
    rw [unlines_nil, List.nil_append]
    by_cases hne : last = []
    · subst hne
      rw [pieces_nil]
      exact iff_of_true rfl ⟨nofun, List.not_mem_nil, Nat.zero_le n⟩
    · rw [if_neg hne, pieces_unterminated hlast hn hne, List.map_cons, List.cons_eq_cons]
      constructor
      · intro h
        have hlen : last.length ≤ n := by
          have hle := length_chomped_le (last.take n)
          rw [h.1, List.length_take] at hle
          omega
        exact ⟨nofun, h.1 ▸ (plain_chomped _).noNul, hlen⟩
      · intro h
        have hplain : Plain last := fun b hb =>
          ⟨fun h0 => h.2.1 (h0 ▸ hb), fun hnl => hlast (hnl ▸ hb)⟩
        rw [List.take_of_length_le h.2.2, List.drop_eq_nil_of_le h.2.2, pieces_nil]
        exact ⟨chomped_of_plain hplain, rfl⟩
  | cons l lines ih =>
    rw [List.forall_mem_cons] at hlines
    rw [unlines_cons, List.cons_append, List.forall_mem_cons]
    rcases Nat.lt_or_ge l.length n with hshort | hlong
    · rw [pieces_terminated hlines.1 hshort, List.map_cons, List.cons_eq_cons, ih hlines.2]
      have hline : chomped (l ++ [newline]) = l ↔ 0 ∉ l := by
        constructor
        · exact fun h => h ▸ (plain_chomped _).noNul
        · exact fun h0 => chomped_append_newline fun b hb =>
            ⟨fun hb0 => h0 (hb0 ▸ hb), fun hnl => hlines.1 (hnl ▸ hb)⟩
      constructor
      · exact fun h => ⟨⟨⟨hline.1 h.1, hshort⟩, h.2.1⟩, h.2.2⟩
      · exact fun h => ⟨hline.2 h.1.1.1, h.1.2, h.2⟩
    · -- A line that is cut makes a piece too many.
      refine iff_of_false (fun h => ?_) fun h => absurd h.1.1.2 (Nat.not_lt.2 hlong)
      have hrest := length_le_pieces hlines.2 hlast hn
      have hcut := length_pieces_lt (l := l.drop n)
        (fun hmem => hlines.1 (List.mem_of_mem_drop hmem)) hn (unlines lines last)
      have hlen := congrArg List.length h
      rw [List.length_map, pieces_cut hlines.1 hn hlong, List.length_cons, List.length_cons] at hlen
      omega

theorem TextFile.rows_iff {cnt : Nat} (h1 : 1 < cnt) (f : TextFile) :
    (pieces (cnt - 1) f.bytes).map chomped = f.rows ↔ f.Fits cnt := by
  have hlines : ∀ l : List UInt8, l.length < cnt - 1 ↔ l.length + 1 < cnt := fun l => by omega
  have hlast : f.last.length ≤ cnt - 1 ↔ f.last.length < cnt := by omega
  have hpieces := map_chomped_pieces_iff f.linesOk f.lastOk (n := cnt - 1) (by omega)
  rw [hlast] at hpieces
  simp only [hlines] at hpieces
  exact hpieces.trans ⟨fun h => ⟨h.1, h.2⟩, fun h => ⟨h.lines, h.last⟩⟩

end

/-- **What the calls give** of a file that is not empty are its lines cut into the parts that the buffer
    has room for, and so the lines themselves iff these fit. -/
theorem readsLines_iff {cnt : Nat} (h1 : 1 < cnt) (h2 : cnt < 2 ^ 31) (data : Mem) (f : TextFile)
    (hne : f.bytes ≠ []) : f.ReadsParts cnt data ∧ (f.ReadsLines cnt data ↔ f.Fits cnt) := by
  have hparts := f.map_chomped_pieces (n := cnt - 1) (by omega)
  have hcount := congrArg List.length hparts
  rw [List.length_map, List.length_map] at hcount
  refine ⟨fun more => ?_, fun h => ?_, fun h more => ?_⟩
  · rcases myfgetsRun_fopen h1 h2 hne data more with ⟨data', hrun, hout⟩
    rw [hparts, hcount] at hrun
    exact ⟨data', hrun, hout⟩
  · rcases h 0 with ⟨data', hrun, -⟩
    have hle : (pieces (cnt - 1) f.bytes).length ≤ f.rows.length :=
      length_pieces_le_calls h1 h2 (a := []) hrun
    have hge : f.rows.length ≤ (pieces (cnt - 1) f.bytes).length :=
      length_le_pieces f.linesOk f.lastOk (by omega)
    rcases myfgetsRun_fopen h1 h2 hne data 0 with ⟨data'', hrun', -⟩
    rw [Nat.le_antisymm hle hge, hrun] at hrun'
    have hstrs : f.rows ++ [] = (pieces (cnt - 1) f.bytes).map chomped ++ [] :=
      congrArg Prod.fst (Option.some.inj hrun')
    rw [List.append_nil, List.append_nil] at hstrs
    exact (f.rows_iff h1).1 hstrs.symm
  · have hstrs : (pieces (cnt - 1) f.bytes).map chomped = f.rows := (f.rows_iff h1).2 h
    rcases myfgetsRun_fopen h1 h2 hne data more with ⟨data', hrun, hout⟩
    have hlen : (pieces (cnt - 1) f.bytes).length = f.rows.length := by
      rw [← hstrs, List.length_map]
    rw [hstrs, hlen] at hrun
    exact ⟨data', hrun, hout⟩

/-- `ab`, and `c` without a newline: a buffer of four bytes is enough, in one of three the `ab` fills it
    and the newline comes as a line of its own. -/
theorem readsLines_iff_two :
    TextFile.ReadsLines 4 (fun _ => 255) ⟨[[97, 98]], [99], by decide, by decide⟩ ∧
      ¬TextFile.ReadsLines 3 (fun _ => 255) ⟨[[97, 98]], [99], by decide, by decide⟩ ∧
      ∃ data', myfgetsRun 3 3 (fun _ => 255, File.fopen [97, 98, 10, 99]) =
        some ([[97, 98], [], [99]], data', File.split [97, 98, 10, 99] []) := by
  refine ⟨(readsLines_iff (by decide) (by decide) _ _ (by decide)).2.2 ⟨by decide, by decide⟩,
    fun h => absurd ((readsLines_iff (by decide) (by decide) _ _ (by decide)).2.1 h).lines (by decide), ?_⟩
  rcases (readsLines_iff (show 1 < 3 by decide) (by decide) (fun _ => 255)
    ⟨[[97, 98]], [99], by decide, by decide⟩ (by decide)).1 0 with ⟨data', hrun, -⟩
  exact ⟨data', hrun⟩

end AdhocNode
