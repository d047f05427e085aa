/-
  REASSEMBLY OF FRAGMENTS — a receiver that holds the fragments of one message at a time.

  A fragment carries two bits, `first` (it opens a message) and `more` (another fragment follows),
  the index of its message, and a payload.  The receiver holds a list of fragments; a new fragment
  `joins` them or replaces them (`absorb`).  It joins when the held fragments have a payload, were
  opened by a first fragment with the same index, the last of them announced another one, and the
  new one does not open a message itself.

  1. **Soundness** — `run fs`, what the receiver holds after `fs`, is a suffix of `fs`
     (`run_suffix`); when it counts as `complete` it is a message (`isMessage_run`).
  2. **Completeness** — `fragments ix true cs` is the message `cs.flatten` cut into the chunks `cs`;
     absorbed one by one, in any earlier state, its prefixes are what is held
     (`absorb_fragments_take`), and exactly the whole of it is complete (`complete_take`).
  3. **Loss** — `stream idx cut` numbers the fragments of a sequence of messages.  If every fragment
     that joins is the successor of the fragment delivered before it (`InSequence`), whatever is
     complete is one of the messages, whole (`payloads_run_of_inSequence`).  The index alone does
     not give that: it tells neither a lost fragment in the middle nor a message with the same
     index further on.
-/
import Mathlib.Data.List.Flatten
import Mathlib.Data.List.Induction

namespace Reassembly

/-- A fragment of a message. -/
structure Frag (ι β : Type) where
  first : Bool
  more : Bool
  idx : ι
  payload : List β

variable {ι β : Type}

/-- The bytes that a list of fragments carries. -/
def payloads (fs : List (Frag ι β)) : List β := fs.flatMap Frag.payload

@[simp] theorem payloads_nil : payloads ([] : List (Frag ι β)) = [] := rfl

@[simp] theorem payloads_cons (f : Frag ι β) (fs : List (Frag ι β)) :
    payloads (f :: fs) = f.payload ++ payloads fs := rfl

theorem payloads_append (fs gs : List (Frag ι β)) :
    payloads (fs ++ gs) = payloads fs ++ payloads gs := List.flatMap_append

/-- Fewer fragments carry no more bytes. -/
theorem length_payloads_le {fs gs : List (Frag ι β)} (h : fs.Sublist gs) :
    (payloads fs).length ≤ (payloads gs).length := (h.flatMap Frag.payload).length_le

theorem length_payload_le {fs : List (Frag ι β)} {f : Frag ι β} (hf : f ∈ fs) :
    f.payload.length ≤ (payloads fs).length := by
  have h := length_payloads_le (List.singleton_sublist.mpr hf)
  rwa [payloads_cons, payloads_nil, List.append_nil] at h

/-- The held fragments count as a whole message. -/
def complete (held : List (Frag ι β)) : Bool :=
  !(payloads held).isEmpty && held.head?.any Frag.first && !held.getLast?.any Frag.more

/-- The three tests: there are bytes, the first fragment opens, and the last one announces no other.
    -/
theorem complete_iff {held : List (Frag ι β)} :
    complete held = true ↔ payloads held ≠ [] ∧ (∃ h, held.head? = some h ∧ h.first = true) ∧
      ∀ l, held.getLast? = some l → l.more = false := by
  simp [complete, Option.any_eq_true, Option.any_eq_false, and_assoc]

/-- A list of fragments that is exactly one message. -/
structure IsMessage (fs : List (Frag ι β)) : Prop where
  opened : ∃ f rest, fs = f :: rest ∧ f.first = true ∧ f.payload ≠ [] ∧
    ∀ g ∈ rest, g.first = false ∧ g.idx = f.idx
  closed : ∃ init l, fs = init ++ [l] ∧ l.more = false ∧ ∀ g ∈ init, g.more = true

/-- The shape of what is held: behind the fragment that opened it only continuations with its index,
    and every fragment but the last announces another one. -/
structure Linked (held : List (Frag ι β)) : Prop where
  opened : ∃ f rest, held = f :: rest ∧ (rest ≠ [] → f.payload ≠ []) ∧
    ∀ g ∈ rest, g.first = false ∧ g.idx = f.idx
  announced : ∃ init l, held = init ++ [l] ∧ ∀ g ∈ init, g.more = true

/-- A fragment alone is linked, whatever its flags are. -/
theorem linked_singleton (f : Frag ι β) : Linked [f] :=
  ⟨⟨f, [], rfl, by simp, by simp⟩, ⟨[], f, rfl, by simp⟩⟩

/-- Held fragments with a payload were opened by a fragment with a payload. -/
theorem payload_ne_nil_of_payloads {f : Frag ι β} {rest : List (Frag ι β)}
    (hne : rest ≠ [] → f.payload ≠ []) (hpay : payloads (f :: rest) ≠ []) : f.payload ≠ [] := by
  by_cases hrest : rest = []
  · intro hempty
    exact hpay (by simp [hrest, hempty])
  · exact hne hrest

/-- **What is linked and counts as complete is one message**, from its first fragment to its last.
    -/
theorem Linked.isMessage {held : List (Frag ι β)} (h : Linked held) (hc : complete held = true) :
    IsMessage held := by
  obtain ⟨hpay, ⟨g₀, hhead, hfirst⟩, hlast⟩ := complete_iff.mp hc
  obtain ⟨g, rest, hheld, hne, hrest⟩ := h.opened
  obtain ⟨init, l, hinit, hann⟩ := h.announced
  have hg : g₀ = g := by rw [hheld] at hhead; exact (Option.some.inj hhead).symm
  have hl : held.getLast? = some l := by rw [hinit]; exact List.getLast?_concat
  subst hg
  refine ⟨⟨g₀, rest, hheld, hfirst, ?_, hrest⟩, ⟨init, l, hinit, hlast l hl, hann⟩⟩
  rw [hheld] at hpay
  exact payload_ne_nil_of_payloads hne hpay

/-! ## The receiver -/

section Receiver

variable [DecidableEq ι]

/-- The new fragment continues the held ones. -/
def joins (held : List (Frag ι β)) (f : Frag ι β) : Bool :=
  !(payloads held).isEmpty && held.head?.any (fun h => h.first && decide (h.idx = f.idx))
    && held.getLast?.any Frag.more && !f.first

/-- One fragment received. -/
def absorb (held : List (Frag ι β)) (f : Frag ι β) : List (Frag ι β) :=
  if joins held f then held ++ [f] else [f]

/-- What is held after a sequence of fragments. -/
def run (fs : List (Frag ι β)) : List (Frag ι β) := fs.foldl absorb []

/-- The four tests of the receiver. -/
theorem joins_iff {held : List (Frag ι β)} {f : Frag ι β} :
    joins held f = true ↔ payloads held ≠ [] ∧ (∃ h, held.head? = some h ∧ h.first = true ∧
      h.idx = f.idx) ∧ (∃ l, held.getLast? = some l ∧ l.more = true) ∧ f.first = false := by
  simp [joins, Option.any_eq_true, and_assoc]

theorem absorb_of_joins {held : List (Frag ι β)} {f : Frag ι β} (h : joins held f = true) :
    absorb held f = held ++ [f] := if_pos h

theorem absorb_of_not_joins {held : List (Frag ι β)} {f : Frag ι β} (h : joins held f = false) :
    absorb held f = [f] := if_neg (by simp [h])

theorem run_concat (fs : List (Frag ι β)) (f : Frag ι β) :
    run (fs ++ [f]) = absorb (run fs) f := by
  unfold run; rw [List.foldl_append]; rfl

/-! ## Soundness -/

/-- The held fragments are the last ones received. -/
theorem run_suffix (fs : List (Frag ι β)) : run fs <:+ fs := by
  induction fs using List.reverseRecOn with
  | nil => exact List.suffix_rfl
  | append_singleton fs f ih =>
    rw [run_concat]
    cases hj : joins (run fs) f with
    | true =>
      rw [absorb_of_joins hj]
      obtain ⟨pre, hpre⟩ := ih
      exact ⟨pre, by rw [← List.append_assoc, hpre]⟩
    | false =>
      rw [absorb_of_not_joins hj]
      exact ⟨fs, rfl⟩

/-- The step lemma of `Linked`. -/
theorem Linked.concat {held : List (Frag ι β)} {f : Frag ι β} (h : Linked held)
    (hj : joins held f = true) : Linked (held ++ [f]) := by
  obtain ⟨hpay, ⟨g₀, hhead, -, hidx⟩, ⟨l₀, hlast, hmore⟩, hfirst⟩ := joins_iff.mp hj
  obtain ⟨g, rest, hheld, hne, hrest⟩ := h.opened
  obtain ⟨init, l, hinit, hann⟩ := h.announced
  have hg : g₀ = g := by rw [hheld] at hhead; exact (Option.some.inj hhead).symm
  have hl : l₀ = l := by
    rw [hinit, List.getLast?_concat] at hlast; exact (Option.some.inj hlast).symm
  subst hg hl
  refine ⟨⟨g₀, rest ++ [f], by rw [hheld]; rfl, fun _ => ?_, ?_⟩, ⟨held, f, rfl, ?_⟩⟩
  · rw [hheld] at hpay
    exact payload_ne_nil_of_payloads hne hpay
  · intro x hx
    rcases List.mem_append.mp hx with hx | hx
    · exact hrest x hx
    · rw [List.mem_singleton.mp hx]; exact ⟨hfirst, hidx.symm⟩
  · intro x hx
    rw [hinit] at hx
    rcases List.mem_append.mp hx with hx | hx
    · exact hann x hx
    · rw [List.mem_singleton.mp hx]; exact hmore

/-- The run lemma of `Linked`. -/
theorem linked_run {fs : List (Frag ι β)} (h : fs ≠ []) : Linked (run fs) := by
  induction fs using List.reverseRecOn with
  | nil => exact absurd rfl h
  | append_singleton fs f ih =>
    rw [run_concat]
    cases hj : joins (run fs) f with
    | false => rw [absorb_of_not_joins hj]; exact linked_singleton f
    | true =>
      rw [absorb_of_joins hj]
      refine Linked.concat (ih ?_) hj
      intro hnil
      rw [hnil] at hj
      exact absurd hj (by simp [run, joins])

/-- **Soundness**: what is held and complete is one message. -/
theorem isMessage_run {fs : List (Frag ι β)} (hc : complete (run fs) = true) :
    IsMessage (run fs) := by
  refine Linked.isMessage (linked_run ?_) hc
  rintro rfl
  exact absurd hc (by simp [run, complete])

end Receiver

/-! ## Completeness -/

/-- A message cut into chunks: the first fragment of the list has `first` as given, every fragment
    but the last has `more`. -/
def fragments (ix : ι) (first : Bool) : List (List β) → List (Frag ι β)
  | [] => []
  | c :: cs => ⟨first, !cs.isEmpty, ix, c⟩ :: fragments ix false cs

@[simp] theorem length_fragments (ix : ι) (first : Bool) (cs : List (List β)) :
    (fragments ix first cs).length = cs.length := by
  induction cs generalizing first with
  | nil => rfl
  | cons c cs ih => rw [fragments, List.length_cons, ih, List.length_cons]

@[simp] theorem map_payload_fragments (ix : ι) (first : Bool) (cs : List (List β)) :
    (fragments ix first cs).map Frag.payload = cs := by
  induction cs generalizing first with
  | nil => rfl
  | cons c cs ih => rw [fragments, List.map_cons, ih]

/-- The fragments carry the message. -/
theorem payloads_fragments (ix : ι) (first : Bool) (cs : List (List β)) :
    payloads (fragments ix first cs) = cs.flatten := by
  unfold payloads
  rw [List.flatMap_def, map_payload_fragments]

/-- The payloads of a message's fragments are its chunks. -/
theorem payload_mem_of_mem_fragments {ix : ι} {first : Bool} {cs : List (List β)} {f : Frag ι β}
    (hf : f ∈ fragments ix first cs) : f.payload ∈ cs := by
  have hmem : f.payload ∈ (fragments ix first cs).map Frag.payload := List.mem_map_of_mem hf
  rwa [map_payload_fragments] at hmem

/-- The fragment in position `p`. -/
theorem fragments_getElem? (ix : ι) (first : Bool) {cs : List (List β)} {p : Nat} {c : List β}
    (h : cs[p]? = some c) :
    (fragments ix first cs)[p]? =
      some ⟨first && decide (p = 0), decide (p + 1 < cs.length), ix, c⟩ := by
  induction cs generalizing first p with
  | nil => simp at h
  | cons d cs ih =>
    cases p with
    | zero =>
      have hd : d = c := by simpa using h
      subst hd
      cases cs <;> simp [fragments]
    | succ p =>
      rw [fragments, List.getElem?_cons_succ, ih false (by simpa using h)]
      simp

section Prefixes

variable {ix : ι} {cs : List (List β)} {p : Nat}

/-- A prefix of a message begins with the fragment that opens it, -/
theorem head?_take_fragments (ix : ι) (hne : ∀ c ∈ cs, c ≠ []) (h0 : 0 < p) (hp : p ≤ cs.length) :
    ∃ f, ((fragments ix true cs).take p).head? = some f ∧ f.first = true ∧ f.idx = ix ∧
      f.payload ≠ [] := by
  cases cs with
  | nil => simp at hp; omega
  | cons c cs =>
    obtain ⟨q, rfl⟩ : ∃ q, p = q + 1 := ⟨p - 1, by omega⟩
    exact ⟨⟨true, !cs.isEmpty, ix, c⟩, rfl, rfl, rfl, hne c (List.mem_cons_self ..)⟩

/-- carries bytes, -/
theorem payloads_take_ne_nil (hne : ∀ c ∈ cs, c ≠ []) (h0 : 0 < p) (hp : p ≤ cs.length) :
    payloads ((fragments ix true cs).take p) ≠ [] := by
  obtain ⟨f, hhead, -, -, hpay⟩ := head?_take_fragments ix hne h0 hp
  obtain ⟨rest, hcons⟩ : ∃ rest, (fragments ix true cs).take p = f :: rest := by
    cases hl : (fragments ix true cs).take p with
    | nil => rw [hl] at hhead; cases hhead
    | cons g rest => rw [hl] at hhead; cases hhead; exact ⟨rest, rfl⟩
  rw [hcons, payloads_cons]
  intro hnil
  exact hpay (List.append_eq_nil_iff.mp hnil).1

/-- and ends with a fragment that announces another one, unless the prefix is the whole. -/
theorem getLast?_take_fragments (ix : ι) (h0 : 0 < p) (hp : p ≤ cs.length) :
    ∃ l, ((fragments ix true cs).take p).getLast? = some l ∧ l.more = decide (p < cs.length) := by
  obtain ⟨q, rfl⟩ : ∃ q, p = q + 1 := ⟨p - 1, by omega⟩
  have hget := fragments_getElem? ix true (List.getElem?_eq_getElem (show q < cs.length by omega))
  refine ⟨⟨true && decide (q = 0), decide (q + 1 < cs.length), ix, cs[q]⟩, ?_, rfl⟩
  rw [List.take_add_one, hget, Option.toList_some, List.getLast?_concat]

/-- Of the prefixes of a message, only the whole is complete. -/
theorem complete_take (hne : ∀ c ∈ cs, c ≠ []) (h0 : 0 < p) (hp : p ≤ cs.length) :
    complete ((fragments ix true cs).take p) = decide (p = cs.length) := by
  obtain ⟨g, hhead, hfirst, -, -⟩ := head?_take_fragments ix hne h0 hp
  obtain ⟨l, hlast, hmore⟩ := getLast?_take_fragments ix h0 hp
  rw [Bool.eq_iff_iff, complete_iff, decide_eq_true_iff]
  constructor
  · rintro ⟨-, -, hall⟩
    have := hall l hlast
    rw [hmore, decide_eq_false_iff_not] at this
    omega
  · intro hpeq
    refine ⟨payloads_take_ne_nil hne h0 hp, ⟨g, hhead, hfirst⟩, fun l' hl' => ?_⟩
    rw [hlast] at hl'
    cases hl'
    rw [hmore, decide_eq_false_iff_not]
    omega

end Prefixes

section Prefixes

variable [DecidableEq ι] {ix : ι} {cs : List (List β)}

/-- The next fragment joins the ones before it. -/
theorem joins_take (hne : ∀ c ∈ cs, c ≠ []) {p : Nat} (h0 : 0 < p)
    (hp : p < cs.length) {f : Frag ι β} (hf : (fragments ix true cs)[p]? = some f) :
    joins ((fragments ix true cs).take p) f = true := by
  rw [fragments_getElem? ix true (List.getElem?_eq_getElem hp)] at hf
  obtain ⟨g, hhead, hfirst, hidx, -⟩ := head?_take_fragments ix hne h0 (Nat.le_of_lt hp)
  obtain ⟨l, hlast, hmore⟩ := getLast?_take_fragments ix h0 (Nat.le_of_lt hp)
  refine joins_iff.mpr ⟨payloads_take_ne_nil hne h0 (by omega), ⟨g, hhead, hfirst, ?_⟩,
    ⟨l, hlast, by rw [hmore]; exact decide_eq_true hp⟩, ?_⟩
  · rw [hidx]; cases hf; rfl
  · cases hf; simp; omega

/-- **Completeness**: in any state, the first `p` fragments of a message are held once they have been
    absorbed. -/
theorem absorb_fragments_take (hne : ∀ c ∈ cs, c ≠ [])
    (held : List (Frag ι β)) {p : Nat} (h0 : 0 < p) (hp : p ≤ cs.length) :
    ((fragments ix true cs).take p).foldl absorb held = (fragments ix true cs).take p := by
  induction p with
  | zero => omega
  | succ p ih =>
    have hget := fragments_getElem? ix true (List.getElem?_eq_getElem (show p < cs.length by omega))
    rw [List.take_add_one, hget, Option.toList_some, List.foldl_append]
    by_cases hp0 : p = 0
    · subst hp0
      refine absorb_of_not_joins ?_
      rw [← Bool.not_eq_true, joins_iff]
      rintro ⟨-, -, -, hfirst⟩
      cases hfirst
    · rw [ih (by omega) (by omega)]
      exact absorb_of_joins (joins_take hne (by omega) (by omega) hget)

end Prefixes

/-! ## Loss -/

/-- A fragment with its place: the number of its message and the position in it. -/
structure Tagged (ι β : Type) where
  msg : Nat
  pos : Nat
  frag : Frag ι β

/-- The fragments of a sequence of messages, each cut into chunks; message `n` has index `idx n`. -/
def stream (idx : Nat → ι) (cut : List (List (List β))) : List (Tagged ι β) :=
  (cut.mapIdx fun n cs => (fragments (idx n) true cs).mapIdx fun p f => ⟨n, p, f⟩).flatten

theorem mem_stream {idx : Nat → ι} {cut : List (List (List β))} {d : Tagged ι β} :
    d ∈ stream idx cut ↔
      ∃ cs, cut[d.msg]? = some cs ∧ (fragments (idx d.msg) true cs)[d.pos]? = some d.frag := by
  unfold stream
  rw [List.mem_flatten]
  constructor
  · rintro ⟨fs, hfs, hd⟩
    obtain ⟨n, hn, rfl⟩ := List.mem_mapIdx.mp hfs
    obtain ⟨p, hp, rfl⟩ := List.mem_mapIdx.mp hd
    exact ⟨cut[n], List.getElem?_eq_getElem hn, List.getElem?_eq_getElem hp⟩
  · rintro ⟨cs, hcs, hfrag⟩
    refine ⟨_, List.mem_mapIdx.mpr ⟨d.msg, (List.getElem?_eq_some_iff.mp hcs).1, rfl⟩, ?_⟩
    obtain ⟨hn, hcs⟩ := List.getElem?_eq_some_iff.mp hcs
    obtain ⟨hp, hfrag⟩ := List.getElem?_eq_some_iff.mp hfrag
    subst hcs
    exact List.mem_mapIdx.mpr ⟨d.pos, hp, by rw [hfrag]⟩

/-- What is held after fragments in sequence: the beginning of the last fragment's message, up to
    that fragment, or the last fragment alone, which then opens nothing. -/
def Holds (cut : List (List (List β))) (idx : Nat → ι) (held : List (Frag ι β)) (l : Tagged ι β) :
    Prop :=
  ∃ cs, cut[l.msg]? = some cs ∧ l.pos < cs.length ∧
    (held = (fragments (idx l.msg) true cs).take (l.pos + 1) ∨
      held = [l.frag] ∧ l.frag.first = false)

/-- A fragment that joins nothing is held alone. -/
theorem holds_singleton {cut : List (List (List β))} {idx : Nat → ι} {d : Tagged ι β}
    (hd : d ∈ stream idx cut) : Holds cut idx [d.frag] d := by
  obtain ⟨cs, hcs, hfrag⟩ := mem_stream.mp hd
  have hp : d.pos < cs.length := by
    have := (List.getElem?_eq_some_iff.mp hfrag).1
    rwa [length_fragments] at this
  refine ⟨cs, hcs, hp, ?_⟩
  rcases Nat.eq_zero_or_pos d.pos with h0 | h0
  · refine Or.inl ?_
    rw [h0] at hfrag ⊢
    rw [List.take_add_one, hfrag]; rfl
  · refine Or.inr ⟨rfl, ?_⟩
    rw [fragments_getElem? _ _ (List.getElem?_eq_getElem hp)] at hfrag
    rw [← Option.some.inj hfrag]
    simp; omega

/-- What is held is no longer than its message. -/
theorem Holds.length_le {cut : List (List (List β))} {idx : Nat → ι} {held : List (Frag ι β)}
    {l : Tagged ι β} (h : Holds cut idx held l) (hl : l ∈ stream idx cut) :
    ∃ cs ∈ cut, (payloads held).length ≤ cs.flatten.length := by
  obtain ⟨cs, hcs, hp, hheld⟩ := h
  refine ⟨cs, List.mem_of_getElem? hcs, ?_⟩
  rw [← payloads_fragments (idx l.msg) true cs]
  rcases hheld with hheld | ⟨hheld, -⟩
  · rw [hheld]; exact length_payloads_le (List.take_sublist ..)
  · obtain ⟨cs', hcs', hfrag⟩ := mem_stream.mp hl
    rw [hcs] at hcs'
    cases hcs'
    have hmem : l.frag ∈ fragments (idx l.msg) true cs := List.mem_of_getElem? hfrag
    obtain ⟨pre, post, hsplit⟩ := List.append_of_mem hmem
    rw [hheld, hsplit, payloads_append, payloads_cons, payloads_cons, payloads_nil]
    simp only [List.length_append, List.length_nil]
    omega

section InSequence

variable [DecidableEq ι]

/-- Every fragment that joins is the successor of the fragment delivered just before it. -/
def InSequence (ds : List (Tagged ι β)) : Prop :=
  ∀ pre d post, ds = pre ++ d :: post → joins (run (pre.map Tagged.frag)) d.frag = true →
    ∃ l, pre.getLast? = some l ∧ d.msg = l.msg ∧ d.pos = l.pos + 1

theorem InSequence.prefix {ds es : List (Tagged ι β)} (h : InSequence (ds ++ es)) :
    InSequence ds := by
  intro pre d post heq hj
  exact h pre d (post ++ es) (by rw [heq]; simp) hj

/-- A fragment that joins nothing, or follows its predecessor, keeps a delivery in sequence. -/
theorem InSequence.concat {ds : List (Tagged ι β)} {d : Tagged ι β} (h : InSequence ds)
    (hd : joins (run (ds.map Tagged.frag)) d.frag = true →
      ∃ l, ds.getLast? = some l ∧ d.msg = l.msg ∧ d.pos = l.pos + 1) : InSequence (ds ++ [d]) := by
  intro pre e post heq hj
  rcases List.eq_nil_or_concat post with rfl | ⟨post', x, rfl⟩
  · obtain ⟨rfl, hde⟩ := List.append_inj' heq rfl
    cases hde
    exact hd hj
  · rw [List.concat_eq_append, ← List.cons_append, ← List.append_assoc] at heq
    exact h pre e post' (List.append_inj' heq rfl).1 hj

theorem inSequence_nil : InSequence ([] : List (Tagged ι β)) := by
  intro pre d post heq
  simp at heq

/-- The run lemma of the loss section. -/
theorem holds_run {cut : List (List (List β))} {idx : Nat → ι} {ds : List (Tagged ι β)}
    (hmem : ∀ d ∈ ds, d ∈ stream idx cut) (hseq : InSequence ds) {l : Tagged ι β}
    (hl : ds.getLast? = some l) : Holds cut idx (run (ds.map Tagged.frag)) l := by
  induction ds using List.reverseRecOn generalizing l with
  | nil => cases hl
  | append_singleton ds d ih =>
    have hdl : d = l := by rw [List.getLast?_concat] at hl; exact Option.some.inj hl
    subst hdl
    have hd : d ∈ stream idx cut := hmem d (by simp)
    rw [List.map_append, List.map_cons, List.map_nil, run_concat]
    cases hj : joins (run (ds.map Tagged.frag)) d.frag with
    | false => rw [absorb_of_not_joins hj]; exact holds_singleton hd
    | true =>
      obtain ⟨l, hlast, hmsg, hpos⟩ := hseq ds d [] rfl hj
      obtain ⟨cs, hcs, hp, hheld⟩ := ih (fun e he => hmem e (by simp [he])) hseq.prefix hlast
      rw [absorb_of_joins hj]
      rcases hheld with hheld | ⟨hheld, hfirst⟩
      · obtain ⟨cs', hcs', hfrag⟩ := mem_stream.mp hd
        rw [hmsg, hcs] at hcs'
        cases hcs'
        have hp' : d.pos < cs.length := by
          have := (List.getElem?_eq_some_iff.mp hfrag).1
          rwa [length_fragments] at this
        refine ⟨cs, by rw [hmsg]; exact hcs, hp', Or.inl ?_⟩
        rw [List.take_add_one, hfrag, hheld, hmsg, hpos]; rfl
      · obtain ⟨-, ⟨g, hhead, hg, -⟩, -, -⟩ := joins_iff.mp hj
        rw [hheld] at hhead
        cases hhead
        rw [hfirst] at hg
        cases hg

/-- **Loss**: fragments delivered in sequence never make up anything but a message that was sent. -/
theorem payloads_run_of_inSequence {cut : List (List (List β))} {idx : Nat → ι}
    (hne : ∀ cs ∈ cut, ∀ c ∈ cs, c ≠ []) {ds : List (Tagged ι β)}
    (hmem : ∀ d ∈ ds, d ∈ stream idx cut) (hseq : InSequence ds)
    (hc : complete (run (ds.map Tagged.frag)) = true) :
    ∃ cs ∈ cut, payloads (run (ds.map Tagged.frag)) = cs.flatten := by
  cases hlast : ds.getLast? with
  | none =>
    rw [List.getLast?_eq_none_iff.mp hlast] at hc
    exact absurd hc (by simp [run, complete])
  | some l =>
    obtain ⟨cs, hcs, hp, hheld⟩ := holds_run hmem hseq hlast
    have hcut : cs ∈ cut := List.mem_of_getElem? hcs
    rcases hheld with hheld | ⟨hheld, hfirst⟩
    · rw [hheld, complete_take (hne cs hcut) (by omega) (by omega), decide_eq_true_iff] at hc
      refine ⟨cs, hcut, ?_⟩
      rw [hheld, hc, ← length_fragments (idx l.msg) true cs, List.take_length, payloads_fragments]
    · rw [hheld] at hc
      obtain ⟨-, ⟨g, hhead, hg⟩, -⟩ := complete_iff.mp hc
      cases hhead
      rw [hfirst] at hg
      cases hg

end InSequence

end Reassembly
