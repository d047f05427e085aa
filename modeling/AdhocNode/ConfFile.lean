/-
  THE DHCP CONFIGURATION — `update_conf` of `src/common.c`.

  1. **The program** — a loop over the file: `fgets`, then an `if` for each of the three settings that
     goes back behind the key and writes the new value over what is there.  The three calls share one
     position.  (The file is there: without it `fgets` gets a null pointer.)

  2. **What it does** (`Rewrites`) — on the bytes behind the position: a key and its new value take the
     place of as many bytes, whatever these were; any other line is kept.  Every content is rewritten to
     something (`exists_rewrites`), and the loop does it (`Rewrites.iterates`).

  3. **A second run** (`updateConf_again`) — the loop is left, and once it has run it changes nothing:
     in the file that it leaves, each key is again where a line is read from.

  4. **Lines** (`rewritesLines_iff`) — lines are replaced by lines iff each old value is exactly as
     long as the new one.  A shorter one lets the new value run over the newline and into the next
     line, of a longer one the end is left behind.
-/
import AdhocNode.Lib.CFile
import AdhocNode.Lib.WhileLoop
import Mathlib.Data.List.TakeWhile

namespace AdhocNode

open CFile WhileLoop

/-! ## The program -/

/-- `FILE_BUFF_LEN` -/
def fileBuffLen : Nat := 1000

/-- The bytes of a string literal. -/
def text (s : String) : List UInt8 := s.toList.map fun c => c.toNat.toUInt8

/-- `%d` -/
def decimal (n : Int) : List UInt8 :=
  (if n < 0 then text "-" else []) ++ (Nat.toDigits 10 n.natAbs).map fun c => c.toNat.toUInt8

/-- Neither a NUL nor a newline. -/
def Plain (bs : List UInt8) : Prop := ∀ b ∈ bs, b ≠ 0 ∧ b ≠ newline

instance (bs : List UInt8) : Decidable (Plain bs) := List.decidableBAll _ bs

/-- A key and its new value: what one `strcpy` and one `sprintf` put into `key[100]` and `val`. -/
structure Setting where
  key : List UInt8
  val : List UInt8
  plain : Plain (key ++ val)
  keyed : key ≠ []
  fits : key.length < 100

/-- One of the three `if`s.  `tmpbuff` is the string in the buffer. -/
def Setting.update (s : Setting) (tmpbuff : List UInt8) (fp : File) : File :=
  if s.key <+: tmpbuff then
    (fp.seekCur (-1 * ((tmpbuff.length : Int) - s.key.length))).fwrite s.val
  else fp

/-- `while (fgets(tmpbuff, FILE_BUFF_LEN, fp)) …` -/
def confStep (ss : List Setting) (fp : File) : Step File :=
  match fp.fgets fileBuffLen with
  | none => .exit
  | some (got, fp) => .next (ss.foldl (fun fp s => s.update (got.takeWhile (· ≠ 0)) fp) fp)

/-! ## The texts -/

section

variable {a b : List UInt8}

theorem plain_append : Plain (a ++ b) ↔ Plain a ∧ Plain b := List.forall_mem_append

theorem Plain.noNul (h : Plain a) : 0 ∉ a := fun h0 => (h 0 h0).1 rfl

theorem Plain.noNewline (h : Plain a) : newline ∉ a := fun hn => (h newline hn).2 rfl

/-- A digit is neither the end of a string nor of a line. -/
theorem plain_digit {c : Char} (h : c.isDigit) : c.toNat.toUInt8 ≠ 0 ∧ c.toNat.toUInt8 ≠ newline := by
  have hrange : 48 ≤ c.toNat ∧ c.toNat ≤ 57 := by
    rw [Char.isDigit, Bool.and_eq_true, decide_eq_true_iff, decide_eq_true_iff] at h
    exact ⟨h.1, h.2⟩
  have hbyte : c.toNat.toUInt8.toNat = c.toNat := Nat.mod_eq_of_lt (by omega)
  constructor
  · intro h0
    rw [h0] at hbyte
    exact absurd hbyte (by show 0 ≠ _; omega)
  · intro hn
    rw [hn] at hbyte
    exact absurd hbyte (by show 10 ≠ _; omega)

theorem plain_decimal (n : Int) : Plain (decimal n) := by
  rw [decimal, plain_append]
  constructor
  · split
    · decide
    · exact fun b hb => absurd hb List.not_mem_nil
  · intro b hb
    rcases List.mem_map.1 hb with ⟨c, hc, rfl⟩
    exact plain_digit (Nat.isDigit_of_mem_toDigits (by omega) (by omega) hc)

end

/-- `192.168.%d.` with the last number. -/
def address (netseg : Int) (host : String) : List UInt8 :=
  text "192.168." ++ decimal netseg ++ text host

theorem plain_setting {key : List UInt8} {host : String} (hkey : Plain key) (netseg : Int)
    (hhost : Plain (text host)) : Plain (key ++ address netseg host) :=
  plain_append.2 ⟨hkey, plain_append.2 ⟨plain_append.2 ⟨by decide, plain_decimal netseg⟩, hhost⟩⟩

/-- The three settings. -/
def settings (netseg : Int) : List Setting :=
  [⟨text "start ", address netseg ".40", plain_setting (by decide) netseg (by decide), by decide,
      by decide⟩,
    ⟨text "end ", address netseg ".254", plain_setting (by decide) netseg (by decide), by decide,
      by decide⟩,
    ⟨text "opt router ", address netseg ".1", plain_setting (by decide) netseg (by decide), by decide,
      by decide⟩]

/-- `update_conf`, on the content of the file: its content afterwards, or `none` if the loop is not
    left. -/
def updateConf (netseg : Int) (content : List UInt8) : Option (List UInt8) :=
  (exec (confStep (settings netseg)) (content.length + 1) (File.fopen content)).map File.bytes

/-! ## What it does -/

/-- The setting whose key the bytes begin with. -/
def keyAt (ss : List Setting) (x : List UInt8) : Option Setting := ss.find? fun s => s.key <+: x

/-- The bytes that `fgets` reads. -/
def confLine (x : List UInt8) : List UInt8 := line (fileBuffLen - 1) x

/-- **What becomes of the bytes behind the position.** -/
inductive Rewrites (ss : List Setting) : List UInt8 → List UInt8 → Prop
  | done : Rewrites ss [] []
  | key {s : Setting} {x z : List UInt8} (hkey : keyAt ss x = some s)
      (h : Rewrites ss (x.drop (s.key.length + s.val.length)) z) :
      Rewrites ss x (s.key ++ s.val ++ z)
  | line {x z : List UInt8} (hx : x ≠ []) (hkey : keyAt ss x = none)
      (h : Rewrites ss (x.drop (confLine x).length) z) : Rewrites ss x (confLine x ++ z)

/-- No two keys begin with the same byte. -/
def Apart (ss : List Setting) : Prop := ss.Pairwise fun s r => s.key.head? ≠ r.key.head?

/-- The three keys begin with `s`, `e` and `o`. -/
theorem apart_settings (netseg : Int) : Apart (settings netseg) := by
  apply List.pairwise_map.1
  show [(text "start ").head?, (text "end ").head?, (text "opt router ").head?].Pairwise Ne
  decide

section

variable {ss : List Setting} {s : Setting} {a x y z l : List UInt8}

/-! ### The key that a line begins with -/

/-- Where a key stands, the first byte is its first byte. -/
theorem Setting.head?_eq (h : s.key <+: x) : x.head? = s.key.head? := by
  rcases h with ⟨t, rfl⟩
  exact List.head?_append_of_ne_nil _ s.keyed

theorem prefix_of_keyAt (h : keyAt ss x = some s) : s.key <+: x := by
  have hdec : decide (s.key <+: x) = true :=
    List.find?_some (p := fun s : Setting => decide (s.key <+: x)) h
  exact of_decide_eq_true hdec

/-- With keys that begin differently, the search finds the one that stands there. -/
theorem keyAt_eq_some (hss : Apart ss) (hs : s ∈ ss) (h : s.key <+: x) : keyAt ss x = some s := by
  induction ss with
  | nil => exact absurd hs List.not_mem_nil
  | cons r ss ih =>
    rcases List.pairwise_cons.1 hss with ⟨hr, hss⟩
    rw [keyAt, List.find?_cons]
    rcases List.mem_cons.1 hs with rfl | hs
    · rw [decide_eq_true h]
    · have hne : ¬r.key <+: x := fun hpre => hr s hs (by
        rw [← Setting.head?_eq hpre, ← Setting.head?_eq h])
      rw [decide_eq_false hne]
      exact ih hss hs

theorem keyAt_mem (h : keyAt ss x = some s) : s ∈ ss := List.mem_of_find?_eq_some h

/-- Two texts that the same keys are prefixes of. -/
theorem keyAt_congr (h : ∀ s : Setting, s.key <+: x ↔ s.key <+: y) : keyAt ss x = keyAt ss y := by
  rw [keyAt, keyAt]
  congr 1
  funext s
  exact decide_eq_decide.2 (h s)

/-- A key is short enough to be read whole. -/
theorem Setting.prefix_confLine (s : Setting) (x : List UInt8) :
    s.key <+: confLine x ↔ s.key <+: x :=
  prefix_line_iff (plain_append.1 s.plain).1.noNewline
    (Nat.le_trans (Nat.le_of_lt s.fits) (by decide))

/-- The line that is read shows the key. -/
theorem keyAt_confLine (ss : List Setting) (x : List UInt8) : keyAt ss (confLine x) = keyAt ss x :=
  keyAt_congr fun s => s.prefix_confLine x

/-! ### One iteration -/

theorem confLine_append_drop (x : List UInt8) : confLine x ++ x.drop (confLine x).length = x :=
  line_append_drop _ x

/-- Every iteration reads a byte at least. -/
theorem confLine_ne_nil (hx : x ≠ []) : confLine x ≠ [] := line_ne_nil (by decide) hx

/-- At most one of the three `if`s is taken. -/
theorem foldl_update (hss : Apart ss) (t : List UInt8) (fp : File) :
    ss.foldl (fun fp s => s.update t fp) fp = (keyAt ss t).elim fp fun s => s.update t fp := by
  induction ss generalizing fp with
  | nil => rfl
  | cons r ss ih =>
    rcases List.pairwise_cons.1 hss with ⟨hr, hss⟩
    rw [List.foldl_cons, ih hss, keyAt, keyAt, List.find?_cons]
    by_cases hpre : r.key <+: t
    · have hnone : ss.find? (fun s => decide (s.key <+: t)) = none := by
        rw [List.find?_eq_none]
        intro s hs hdec
        apply hr s hs
        rw [← Setting.head?_eq hpre, ← Setting.head?_eq (of_decide_eq_true hdec)]
      rw [hnone, decide_eq_true hpre]
      rfl
    · have hkeep : r.update t fp = fp := if_neg hpre
      rw [hkeep, decide_eq_false hpre]

/-- The value is written behind the key of the line that has been read. -/
theorem update_split (hl : s.key <+: l) (a y : List UInt8) :
    s.update l (File.split (a ++ l) y) =
      File.split (a ++ (s.key ++ s.val)) ((l ++ y).drop (s.key.length + s.val.length)) := by
  rcases hl with ⟨t, rfl⟩
  have hback : -1 * (((s.key ++ t).length : Int) - s.key.length) = -(t.length : Int) := by
    rw [List.length_append]
    omega
  rw [Setting.update, if_pos (List.prefix_append _ t), hback, ← List.append_assoc,
    File.seekCur_split, File.fwrite_split, ← List.drop_drop, List.append_assoc s.key,
    List.drop_left, List.append_assoc]

/-- At the end of the file the loop is left. -/
theorem confStep_nil (ss : List Setting) (a : List UInt8) :
    confStep ss (File.split a []) = .exit := by
  rw [confStep, File.fgets_split_nil]

/-- **One iteration**: what it reads, and the one update it makes. -/
theorem confStep_split (hss : Apart ss) (hnul : 0 ∉ x) (hx : x ≠ []) (a : List UInt8) :
    confStep ss (File.split a x) = .next ((keyAt ss x).elim
      (File.split (a ++ confLine x) (x.drop (confLine x).length)) fun s =>
        File.split (a ++ (s.key ++ s.val)) (x.drop (s.key.length + s.val.length))) := by
  have hstr : (confLine x).takeWhile (· ≠ 0) = confLine x := by
    rw [List.takeWhile_eq_self_iff]
    intro b hb
    have hbx : b ∈ x := by
      rw [← confLine_append_drop x]
      exact List.mem_append_left _ hb
    exact decide_eq_true fun h0 => hnul (h0 ▸ hbx)
  rw [confStep, File.fgets_split _ _ hx]
  show Step.next (ss.foldl (fun fp s => s.update ((confLine x).takeWhile (· ≠ 0)) fp)
    (File.split (a ++ confLine x) (x.drop (confLine x).length))) = _
  rw [hstr, foldl_update hss, keyAt_confLine]
  cases hkey : keyAt ss x with
  | none => rfl
  | some s =>
    have hpre : s.key <+: confLine x := (s.prefix_confLine x).2 (prefix_of_keyAt hkey)
    show Step.next (s.update _ _) = Step.next (File.split _ _)
    rw [update_split hpre, confLine_append_drop]

theorem nul_not_mem_drop (hnul : 0 ∉ x) (n : Nat) : 0 ∉ x.drop n :=
  fun h => hnul (List.mem_of_mem_drop h)

theorem ne_nil_of_keyAt (hkey : keyAt ss x = some s) : x ≠ [] := by
  rintro rfl
  exact s.keyed (List.prefix_nil.1 (prefix_of_keyAt hkey))

/-- Less is left behind a setting, -/
theorem length_drop_key_lt (hkey : keyAt ss x = some s) :
    (x.drop (s.key.length + s.val.length)).length < x.length := by
  have hpos : 0 < x.length := List.length_pos_of_ne_nil (ne_nil_of_keyAt hkey)
  have hkeyed : 0 < s.key.length := List.length_pos_of_ne_nil s.keyed
  rw [List.length_drop]
  omega

/-- and behind a line. -/
theorem length_drop_confLine_lt (hx : x ≠ []) :
    (x.drop (confLine x).length).length < x.length := by
  have hpos : 0 < x.length := List.length_pos_of_ne_nil hx
  have hline : 0 < (confLine x).length := List.length_pos_of_ne_nil (confLine_ne_nil hx)
  rw [List.length_drop]
  omega

/-! ### The loop -/

/-- Every content is rewritten to something. -/
theorem exists_rewrites (ss : List Setting) (x : List UInt8) : ∃ z, Rewrites ss x z := by
  induction hn : x.length using Nat.strongRecOn generalizing x with
  | _ n ih =>
    subst hn
    by_cases hx : x = []
    · subst hx
      exact ⟨[], .done⟩
    · cases hkey : keyAt ss x with
      | none =>
        rcases ih _ (length_drop_confLine_lt hx) _ rfl with ⟨z, hz⟩
        exact ⟨_, .line hx hkey hz⟩
      | some s =>
        rcases ih _ (length_drop_key_lt hkey) _ rfl with ⟨z, hz⟩
        exact ⟨_, .key hkey hz⟩

/-- **The loop does what the relation says**, wherever in the file it is entered.  Each iteration
    takes a byte at least. -/
theorem Rewrites.iterates (hss : Apart ss) (h : Rewrites ss x z) (hnul : 0 ∉ x) (a : List UInt8) :
    ∃ n ≤ x.length, Iterates (confStep ss) n (File.split a x) (File.split (a ++ z) []) := by
  induction h generalizing a with
  | done =>
    rw [List.append_nil]
    exact ⟨0, Nat.le_refl 0, .refl _⟩
  | @key s x z hkey _ ih =>
    have hstep := confStep_split hss hnul (ne_nil_of_keyAt hkey) a
    have hless := length_drop_key_lt hkey
    rcases ih (nul_not_mem_drop hnul _) (a ++ (s.key ++ s.val)) with ⟨n, hn, hiter⟩
    rw [hkey] at hstep
    rw [List.append_assoc a] at hiter
    exact ⟨n + 1, by omega, hiter.head hstep⟩
  | @line x z hx hkey _ ih =>
    have hstep := confStep_split hss hnul hx a
    have hless := length_drop_confLine_lt hx
    rcases ih (nul_not_mem_drop hnul _) (a ++ confLine x) with ⟨n, hn, hiter⟩
    rw [hkey] at hstep
    rw [List.append_assoc a] at hiter
    exact ⟨n + 1, by omega, hiter.head hstep⟩

/-- The loop of `update_conf` ends, behind what the relation says. -/
theorem Rewrites.returns {netseg : Int} (h : Rewrites (settings netseg) x z) (hnul : 0 ∉ x) :
    Returns (confStep (settings netseg)) (File.fopen x) (File.split z []) := by
  rcases h.iterates (apart_settings netseg) hnul [] with ⟨n, _, hiter⟩
  exact ⟨hiter.run, confStep_nil _ z⟩

/-- The fuel is enough, as every iteration takes a byte. -/
theorem Rewrites.updateConf {netseg : Int} (h : Rewrites (settings netseg) x z) (hnul : 0 ∉ x) :
    updateConf netseg x = some z := by
  rcases h.iterates (apart_settings netseg) hnul [] with ⟨n, hn, hiter⟩
  have hfuel : x.length + 1 = n + (x.length - n + 1) := by omega
  have hexec : exec (confStep (settings netseg)) (x.length + 1) (File.fopen x) =
      some (File.split z []) := by
    rw [hfuel]
    refine (hiter.exec_add _).trans ?_
    rw [exec, List.nil_append, confStep_nil]
  rw [AdhocNode.updateConf, hexec]
  exact congrArg some (List.append_nil z)

/-! ## A second run -/

/-- No string of the program brings a NUL into the file. -/
theorem Rewrites.noNul (h : Rewrites ss x z) (hnul : 0 ∉ x) : 0 ∉ z := by
  induction h with
  | done => exact hnul
  | @key s x z hkey _ ih =>
    rw [List.mem_append, not_or]
    exact ⟨s.plain.noNul, ih (nul_not_mem_drop hnul _)⟩
  | @line x z hx hkey _ ih =>
    rw [List.mem_append, not_or]
    refine ⟨fun hmem => hnul ?_, ih (nul_not_mem_drop hnul _)⟩
    rw [← confLine_append_drop x]
    exact List.mem_append_left _ hmem

theorem Rewrites.eq_nil (h : Rewrites ss [] z) : z = [] := by
  generalize hx : [] = x at h
  cases h with
  | done => rfl
  | key hkey => exact absurd hx.symm (ne_nil_of_keyAt hkey)
  | line hne => exact absurd hx.symm hne

/-- **What has been rewritten stays as it is.** -/
theorem Rewrites.again (hss : Apart ss) (h : Rewrites ss x z) : Rewrites ss z z := by
  induction h with
  | done => exact .done
  | @key s x z hkey _ ih =>
    have hkey' : keyAt ss (s.key ++ s.val ++ z) = some s :=
      keyAt_eq_some hss (keyAt_mem hkey) (List.append_assoc .. ▸ List.prefix_append s.key _)
    have hdrop : (s.key ++ s.val ++ z).drop (s.key.length + s.val.length) = z := by
      rw [← List.length_append, List.drop_left]
    exact .key hkey' (hdrop.symm ▸ ih)
  | @line x z hx hkey h ih =>
    -- The line ends where it ended before: nothing, or what was behind it, is behind it.
    have hsame : confLine (confLine x ++ z) = confLine x := by
      apply line_append
      by_cases hend : x.drop (confLine x).length = []
      · exact .inr (Rewrites.eq_nil (hend ▸ h))
      · exact .inl hend
    have hkey' : keyAt ss (confLine x ++ z) = none := by
      rw [← keyAt_confLine, hsame, keyAt_confLine, hkey]
    have hne : confLine x ++ z ≠ [] := List.append_ne_nil_of_left_ne_nil (confLine_ne_nil hx) z
    have hagain := Rewrites.line hne hkey' (z := z) (by rw [hsame, List.drop_left]; exact ih)
    rwa [hsame] at hagain

end

/-- **`update_conf` ends, and is idempotent**: on a file without NULs the loop is left, and a second
    run leaves the file as it is. -/
theorem updateConf_again (netseg : Int) (content : List UInt8) (hnul : 0 ∉ content) :
    ∃ fp, Returns (confStep (settings netseg)) (File.fopen content) fp ∧
      updateConf netseg content = some fp.bytes ∧
      updateConf netseg fp.bytes = some fp.bytes := by
  rcases exists_rewrites (settings netseg) content with ⟨z, hz⟩
  have hbytes : (File.split z []).bytes = z := List.append_nil z
  refine ⟨File.split z [], hz.returns hnul, ?_, ?_⟩
  · rw [hbytes]
    exact hz.updateConf hnul
  · rw [hbytes]
    exact (hz.again (apart_settings netseg)).updateConf (hz.noNul hnul)

/-- The first value runs over its newline and over the second line. -/
theorem updateConf_again_short : 0 ∉ text "start 1\nend 2" ∧
    ∃ fp, Returns (confStep (settings 10)) (File.fopen (text "start 1\nend 2")) fp ∧
      updateConf 10 (text "start 1\nend 2") = some fp.bytes ∧
      updateConf 10 fp.bytes = some fp.bytes :=
  ⟨by decide, updateConf_again 10 (text "start 1\nend 2") (by decide)⟩

/-! ## Lines -/

/-- A line that fits in the buffer with its newline. -/
structure ConfLine where
  bytes : List UInt8
  plain : Plain bytes
  short : bytes.length < fileBuffLen - 1

/-- A file of lines. -/
def confFile (lines : List (List UInt8)) : List UInt8 := lines.flatMap (· ++ [newline])

/-- The line with the new value behind its key, if it begins with one. -/
def ConfLine.updated (ss : List Setting) (l : ConfLine) : List UInt8 :=
  (keyAt ss l.bytes).elim l.bytes fun s => s.key ++ s.val

/-- **Each line with a key is replaced by the key and the new value, every other is kept.** -/
def RewritesLines (netseg : Int) (lines : List ConfLine) : Prop :=
  updateConf netseg (confFile (lines.map ConfLine.bytes)) =
    some (confFile (lines.map (ConfLine.updated (settings netseg))))

/-- Behind a key there is a value exactly as long as the new one. -/
def ConfLine.Exact (ss : List Setting) (l : ConfLine) : Prop :=
  ∀ s ∈ ss, s.key <+: l.bytes → l.bytes.length = s.key.length + s.val.length

section

variable {ss : List Setting} {s : Setting} {l : ConfLine} {x y z : List UInt8}

theorem confFile_cons (b : List UInt8) (lines : List (List UInt8)) :
    confFile (b :: lines) = b ++ newline :: confFile lines := by
  rw [confFile, List.flatMap_cons, List.append_assoc]
  rfl

theorem ConfLine.confLine_append (l : ConfLine) (x : List UInt8) :
    confLine (l.bytes ++ newline :: x) = l.bytes ++ [newline] :=
  line_terminated l.plain.noNewline l.short x

/-- A key lies within one line. -/
theorem ConfLine.keyAt_append (l : ConfLine) (ss : List Setting) (x : List UInt8) :
    keyAt ss (l.bytes ++ newline :: x) = keyAt ss l.bytes := by
  rw [← keyAt_confLine, l.confLine_append]
  apply keyAt_congr
  intro s
  rw [List.prefix_concat_iff]
  constructor
  · rintro (heq | hpre)
    · have hmem : newline ∈ s.key := heq ▸ List.mem_append_right _ (List.mem_singleton_self _)
      exact absurd (List.mem_append_left _ hmem) s.plain.noNewline
    · exact hpre
  · exact .inr

/-- The first byte stays. -/
theorem Rewrites.head? (h : Rewrites ss x z) : z.head? = x.head? := by
  cases h with
  | done => rfl
  | key hkey =>
    rw [List.append_assoc, Setting.head?_eq (List.prefix_append _ _),
      Setting.head?_eq (prefix_of_keyAt hkey)]
  | line hx =>
    rw [List.head?_append_of_ne_nil _ (confLine_ne_nil hx)]
    conv_rhs => rw [← confLine_append_drop x]
    rw [List.head?_append_of_ne_nil _ (confLine_ne_nil hx)]

/-- No newline is added. -/
theorem Rewrites.count_newline_le (h : Rewrites ss x z) : z.count newline ≤ x.count newline := by
  induction h with
  | done => exact Nat.le_refl _
  | @key s x z _ _ ih =>
    have hnone : (s.key ++ s.val).count newline = 0 := List.count_eq_zero.2 s.plain.noNewline
    have hdrop := (List.drop_sublist (s.key.length + s.val.length) x).count_le newline
    rw [List.count_append, hnone]
    omega
  | @line x z _ _ _ ih =>
    have hall : (confLine x).count newline + (x.drop (confLine x).length).count newline =
        x.count newline := by
      rw [← List.count_append, confLine_append_drop]
    rw [List.count_append]
    omega

/-- A newline that a value ends in front of is read as a line of its own. -/
theorem Rewrites.newline_cons (h : Rewrites ss (newline :: x) z) :
    ∃ y, z = newline :: y ∧ Rewrites ss x y := by
  generalize hx : newline :: x = x' at h
  cases h with
  | done => exact absurd hx (List.cons_ne_nil _ _)
  | @key s _ _ hkey _ =>
    subst hx
    have hhead : some newline = s.key.head? := Setting.head?_eq (prefix_of_keyAt hkey)
    have hmem : newline ∈ s.key := List.mem_of_mem_head? hhead.symm
    exact absurd (List.mem_append_left _ hmem) s.plain.noNewline
  | line _ _ h =>
    subst hx
    exact ⟨_, rfl, h⟩

/-- A line without a key is kept, and what is behind it is rewritten. -/
theorem Rewrites.of_keyAt_none (hkey : keyAt ss l.bytes = none)
    (h : Rewrites ss (l.bytes ++ newline :: x) z) :
    ∃ y, z = l.bytes ++ newline :: y ∧ Rewrites ss x y := by
  have hline := l.confLine_append x
  generalize hx : l.bytes ++ newline :: x = x' at h hline
  cases h with
  | done => exact absurd hx (List.append_ne_nil_of_right_ne_nil _ (List.cons_ne_nil _ _))
  | key hkey' =>
    rw [← hx, l.keyAt_append, hkey] at hkey'
    cases hkey'
  | @line _ y _ _ h =>
    subst hx
    refine ⟨y, ?_, ?_⟩
    · rw [hline, List.append_assoc]
      rfl
    · have hdrop : (l.bytes ++ newline :: x).drop (l.bytes ++ [newline]).length = x := by
        rw [List.append_cons l.bytes newline x, List.drop_left]
      rwa [hline, hdrop] at h

/-- A line with a key gets the new value, and what is behind the new value is rewritten. -/
theorem Rewrites.of_keyAt_some (hkey : keyAt ss l.bytes = some s)
    (h : Rewrites ss (l.bytes ++ newline :: x) z) :
    ∃ y, z = s.key ++ s.val ++ y ∧
      Rewrites ss ((l.bytes ++ newline :: x).drop (s.key.length + s.val.length)) y := by
  have hkey' : keyAt ss (l.bytes ++ newline :: x) = some s := by
    rw [l.keyAt_append, hkey]
  generalize l.bytes ++ newline :: x = x' at h hkey'
  cases h with
  | done => exact absurd rfl (ne_nil_of_keyAt hkey')
  | @key r _ y hr h =>
    cases hr.symm.trans hkey'
    exact ⟨y, rfl, h⟩
  | line _ hnone =>
    rw [hnone] at hkey'
    cases hkey'

theorem ConfLine.plain_updated (l : ConfLine) (ss : List Setting) : Plain (l.updated ss) := by
  rw [ConfLine.updated]
  cases keyAt ss l.bytes with
  | none => exact l.plain
  | some s => exact s.plain

/-- One newline for each line. -/
theorem count_newline_confFile {f : ConfLine → List UInt8} (hf : ∀ l, Plain (f l))
    (lines : List ConfLine) : (confFile (lines.map f)).count newline = lines.length := by
  induction lines with
  | nil => rfl
  | cons l lines ih =>
    have hnone : (f l).count newline = 0 := List.count_eq_zero.2 (hf l).noNewline
    rw [List.map_cons, confFile_cons, List.count_append, hnone, List.count_cons_self, ih,
      List.length_cons]
    omega

theorem ConfLine.exact_iff (hss : Apart ss) (hkey : keyAt ss l.bytes = some s) :
    l.Exact ss ↔ l.bytes.length = s.key.length + s.val.length := by
  constructor
  · exact fun h => h s (keyAt_mem hkey) (prefix_of_keyAt hkey)
  · intro hlen r hr hpre
    cases (keyAt_eq_some hss hr hpre).symm.trans hkey
    exact hlen

theorem ConfLine.exact_of_none (hss : Apart ss) (hkey : keyAt ss l.bytes = none) :
    l.Exact ss := by
  intro s hs hpre
  cases (keyAt_eq_some hss hs hpre).symm.trans hkey

/-- **The length that is right**: behind the new value come a newline and as many more as there are
    lines, only if the old value ended there. -/
theorem Rewrites.length_eq {n : Nat} {lines : List ConfLine}
    (h : Rewrites ss ((l.bytes ++ newline :: confFile (lines.map ConfLine.bytes)).drop n)
      (newline :: y)) (hcount : y.count newline = lines.length) : l.bytes.length = n := by
  generalize hfile : confFile (lines.map ConfLine.bytes) = rest at h
  rcases Nat.lt_trichotomy l.bytes.length n with hlt | heq | hgt
  · -- The new value has run over the newline of the line.
    exfalso
    obtain ⟨k, rfl⟩ := Nat.exists_eq_add_of_lt hlt
    have hdrop : (l.bytes ++ newline :: rest).drop (l.bytes.length + k + 1) = rest.drop k := by
      have hlen : l.bytes.length + k + 1 = (l.bytes ++ [newline]).length + k := by
        rw [List.length_append, List.length_singleton]
        omega
      rw [hlen, List.append_cons l.bytes newline rest, ← List.drop_drop, List.drop_left]
    have hle := h.count_newline_le
    have hsub := (List.drop_sublist k rest).count_le newline
    have hrest : rest.count newline = lines.length :=
      hfile ▸ count_newline_confFile ConfLine.plain lines
    rw [hdrop, List.count_cons_self] at hle
    omega
  · exact heq
  · -- Some of the old value is left behind it.
    exfalso
    have hne : l.bytes.drop n ≠ [] := by
      rw [Ne, List.drop_eq_nil_iff]
      omega
    have hhead := h.head?
    rw [List.drop_append_of_le_length (Nat.le_of_lt hgt), List.head?_append_of_ne_nil _ hne] at hhead
    exact l.plain.noNewline (List.mem_of_mem_drop (List.mem_of_mem_head? hhead.symm))

/-- **Lines to lines**, for the relation. -/
theorem Rewrites.lines_iff (hss : Apart ss) {lines : List ConfLine}
    (h : Rewrites ss (confFile (lines.map ConfLine.bytes)) z) :
    z = confFile (lines.map (ConfLine.updated ss)) ↔ ∀ l ∈ lines, l.Exact ss := by
  induction lines generalizing z with
  | nil =>
    rw [h.eq_nil]
    exact iff_of_true rfl fun l hl => absurd hl List.not_mem_nil
  | cons l lines ih =>
    rw [List.map_cons, confFile_cons] at h
    rw [List.map_cons, confFile_cons, List.forall_mem_cons, ConfLine.updated]
    cases hkey : keyAt ss l.bytes with
    | none =>
      rcases h.of_keyAt_none hkey with ⟨y, rfl, hy⟩
      show l.bytes ++ newline :: y = l.bytes ++ newline :: _ ↔ _
      rw [List.append_cancel_left_eq, List.cons_eq_cons, ih hy]
      constructor
      · exact fun h => ⟨ConfLine.exact_of_none hss hkey, h.2⟩
      · exact fun h => ⟨rfl, h.2⟩
    | some s =>
      rcases h.of_keyAt_some hkey with ⟨y, rfl, hy⟩
      show s.key ++ s.val ++ y = s.key ++ s.val ++ newline :: _ ↔ _
      rw [List.append_cancel_left_eq, ConfLine.exact_iff hss hkey]
      constructor
      · rintro rfl
        have hlen := hy.length_eq (count_newline_confFile (fun l => l.plain_updated ss) lines)
        rw [← hlen, List.drop_left] at hy
        rcases hy.newline_cons with ⟨z, heq, hz⟩
        cases heq
        exact ⟨hlen, (ih hz).1 rfl⟩
      · rintro ⟨hlen, hall⟩
        rw [← hlen, List.drop_left] at hy
        rcases hy.newline_cons with ⟨z, rfl, hz⟩
        rw [(ih hz).2 hall]

theorem nul_not_mem_confFile (lines : List ConfLine) :
    0 ∉ confFile (lines.map ConfLine.bytes) := by
  induction lines with
  | nil => exact List.not_mem_nil
  | cons l lines ih =>
    rw [List.map_cons, confFile_cons, List.mem_append, List.mem_cons]
    rintro (hl | hn | hrest)
    · exact l.plain.noNul hl
    · exact absurd hn (by decide)
    · exact ih hrest

end

/-- **Lines are replaced by lines iff each old value is exactly as long as the new one.** -/
theorem rewritesLines_iff (netseg : Int) (lines : List ConfLine) :
    RewritesLines netseg lines ↔ ∀ l ∈ lines, l.Exact (settings netseg) := by
  rcases exists_rewrites (settings netseg) (confFile (lines.map ConfLine.bytes)) with ⟨z, hz⟩
  rw [RewritesLines, hz.updateConf (nul_not_mem_confFile lines), Option.some.injEq,
    hz.lines_iff (apart_settings netseg)]

/-- `start` of `udhcpd.conf`, with a number of two digits: the new value ends on the newline. -/
theorem not_rewritesLines_longer :
    ¬RewritesLines 10 [⟨text "start 192.168.2.40", by decide, by decide⟩] := by
  unfold RewritesLines
  decide

end AdhocNode
