/-
  MULTICAST SENDING — `dist_init`, `expire_handle`, `multi_tx` and the send functions of
  `src/protocol_socket.c`.

  1. **The state** — `g_multi` has an entry for each protocol: a flag that the timer sets, and a pointer
     to the data its send function takes.  The functions share the buffer `g_databuf[e_tx]`, on which
     `multi_tx` calls the send functions of the protocols whose flag is set.  A data pointer is NULL
     (`none`) or points to memory of its own.

  2. **The functions** — undefined (`none`) where the code copies from NULL or past the buffer, or
     divides by 0.  `multiTx` also yields what there is to see of a call: the protocols whose function
     was called, and the datagram.
-/
import AdhocNode.MultiRx

namespace AdhocNode

open CMem

/-! ## The state -/

/-- `E_MULTI_P_TYPE`. -/
inductive MultiProto where
  | distBasedata
  | distLen
  deriving DecidableEq

/-- The protocols in order, up to `e_multi_p_max`. -/
def MultiProto.all : List MultiProto := [.distBasedata, .distLen]

/-- `multi_t`; which function `func` is, the protocol says. -/
structure Multi where
  flg : Bool
  expire : Int
  data : Option Mem

/-- `databuf_t`. -/
structure Databuf where
  len : Int
  buf : Mem

/-- `g_multi` and `g_databuf[e_tx]`. -/
structure Multicast where
  multi : MultiProto → Multi
  tx : Databuf

/-! ## The functions -/

/-- The body of both send functions: `len` goes up by 1, and `len` bytes are copied to the buffer. -/
def distSnd (data : Option Mem) (tx : Databuf) : Option Databuf := do
  let data ← data
  let buf ← Mem.copyIn? sockBufLen tx.buf 0 data (tx.len + 1)
  return ⟨tx.len + 1, buf⟩

/-- `dist_basedata_snd`. -/
def distBasedataSnd : Option Mem → Databuf → Option Databuf := distSnd

/-- `dist_len_snd`. -/
def distLenSnd : Option Mem → Databuf → Option Databuf := distSnd

/-- `func`, as `dist_init` sets it. -/
def MultiProto.func : MultiProto → Option Mem → Databuf → Option Databuf
  | .distBasedata => distBasedataSnd
  | .distLen => distLenSnd

/-- `dist_init`. -/
def distInit (s : Multicast) : Multicast where
  multi _ := ⟨false, 10000, none⟩
  tx := { s.tx with len := 0 }

/-- The loop of `multi_tx`: the buffer, and the protocols whose function was called. -/
def multiTxLoop (multi : MultiProto → Multi) :
    List MultiProto → Databuf → Option (Databuf × List MultiProto)
  | [], tx => some (tx, [])
  | p :: ps, tx =>
    if (multi p).flg then do
      let tx ← p.func (multi p).data tx
      let (tx, called) ← multiTxLoop multi ps tx
      return (tx, p :: called)
    else multiTxLoop multi ps tx

/-- What there is to see of a call of `multi_tx`. -/
structure MultiSent where
  called : List MultiProto
  datagram : List UInt8

/-- `multi_tx`. -/
def multiTx (s : Multicast) : Option (Multicast × MultiSent) := do
  let (tx, called) ← multiTxLoop s.multi MultiProto.all { s.tx with len := 0 }
  return ({ s with tx := tx }, ⟨called, tx.buf.slice 0 tx.len.toNat⟩)

/-- `icount % expire == 100`. -/
def Multi.expires (m : Multi) (icount : Int32) : Bool := icount.toInt.tmod m.expire = 100

/-- `expire_handle`. -/
def expireHandle (icount : Int32) (s : Multicast) : Option Multicast :=
  if ∀ p ∈ MultiProto.all, (s.multi p).expire ≠ 0 then
    some { s with
      multi := fun p => { s.multi p with flg := (s.multi p).flg || (s.multi p).expires icount } }
  else none

/-! ## The timer -/

theorem expireHandle_defined {s : Multicast} (hexpire : ∀ p, (s.multi p).expire ≠ 0)
    (icount : Int32) : ∃ s', expireHandle icount s = some s' ∧ ∀ p, s'.multi p =
      { s.multi p with flg := (s.multi p).flg || (s.multi p).expires icount } :=
  ⟨_, if_pos fun p _ => hexpire p, fun _ => rfl⟩

/-! ## What `multi_tx` calls -/

section

variable {multi : MultiProto → Multi} {tx : Databuf}

/-- A send function copies all of the datagram so far from its own data, as long as there is room. -/
theorem func_some (p : MultiProto) (data : Mem) (h0 : 0 ≤ tx.len) (hroom : tx.len + 1 ≤ sockBufLen) :
    p.func (some data) tx = some ⟨tx.len + 1, tx.buf.copy 0 data (tx.len + 1).toNat⟩ := by
  have hfits : 0 + (tx.len + 1).toNat ≤ sockBufLen := by omega
  have hcopy : Mem.copyIn? sockBufLen tx.buf 0 data (tx.len + 1) =
      some (tx.buf.copy 0 data (tx.len + 1).toNat) := Mem.copyIn?_of_fits (by omega) hfits
  have hsnd : distSnd (some data) tx = some ⟨tx.len + 1, tx.buf.copy 0 data (tx.len + 1).toNat⟩ := by
    rw [distSnd, Option.bind_eq_bind, Option.bind_some, hcopy]
    rfl
  cases p with
  | distBasedata => exact hsnd
  | distLen => exact hsnd

/-- What the loop of `multi_tx` has done: it has called the functions of the protocols that are due,
    and the last of them has written the datagram. -/
structure TxLooped (multi : MultiProto → Multi) (due : List MultiProto) (tx tx' : Databuf) : Prop where
  len : tx'.len = tx.len + due.length
  idle : due = [] → tx' = tx
  sent : ∀ p m, due.getLast? = some p → (multi p).data = some m →
    tx'.buf.slice 0 tx'.len.toNat = m.slice 0 tx'.len.toNat

/-- A first call, and then those of the others. -/
theorem TxLooped.cons {p : MultiProto} {due : List MultiProto} {m : Mem} {tx' : Databuf}
    (hm : (multi p).data = some m)
    (h : TxLooped multi due ⟨tx.len + 1, tx.buf.copy 0 m (tx.len + 1).toNat⟩ tx') :
    TxLooped multi (p :: due) tx tx' := by
  refine ⟨?_, nofun, fun q m' hlast hm' => ?_⟩
  · have hlen : tx'.len = tx.len + 1 + due.length := h.len
    rw [List.length_cons]
    omega
  · cases due with
    | nil =>
      rw [List.getLast?_singleton] at hlast
      cases hlast
      rw [hm] at hm'
      cases hm'
      rw [h.idle rfl]
      exact Mem.slice_copy_self tx.buf m 0 (tx.len + 1).toNat
    | cons r rest =>
      rw [List.getLast?_cons_cons] at hlast
      exact h.sent q m' hlast hm'

/-- **The loop of `multi_tx` calls the functions of the protocols whose flag is set**, if their data
    is there. -/
theorem multiTxLoop_due
    (hdata : ∀ p, (multi p).flg = true → ∃ m, (multi p).data = some m) {ps : List MultiProto} :
    ∀ {tx : Databuf}, 0 ≤ tx.len → tx.len + ps.length ≤ sockBufLen →
      ∃ tx', multiTxLoop multi ps tx = some (tx', ps.filter fun p => (multi p).flg) ∧
        TxLooped multi (ps.filter fun p => (multi p).flg) tx tx' := by
  induction ps with
  | nil =>
    intro tx _ _
    exact ⟨tx, rfl, ⟨(Int.add_zero _).symm, fun _ => rfl, fun p m hlast => nomatch hlast⟩⟩
  | cons p ps ih =>
    intro tx h0 hroom
    rw [List.length_cons, Int.natCast_add] at hroom
    by_cases hflg : (multi p).flg = true
    · rcases hdata p hflg with ⟨m, hm⟩
      have hfunc := func_some p m h0 (show tx.len + 1 ≤ sockBufLen by omega)
      rcases @ih ⟨tx.len + 1, tx.buf.copy 0 m (tx.len + 1).toNat⟩
        (show 0 ≤ tx.len + 1 by omega) (show tx.len + 1 + ps.length ≤ sockBufLen by omega) with
        ⟨tx', hloop, hlooped⟩
      have hfilter : (p :: ps).filter (fun p => (multi p).flg) =
          p :: ps.filter fun p => (multi p).flg := List.filter_cons_of_pos hflg
      rw [hfilter]
      refine ⟨tx', ?_, hlooped.cons hm⟩
      rw [multiTxLoop, if_pos hflg, hm, hfunc, Option.bind_eq_bind, Option.bind_some, hloop]
      rfl
    · rcases ih h0 (show tx.len + ps.length ≤ sockBufLen by omega) with ⟨tx', hloop, hlooped⟩
      have hfilter : (p :: ps).filter (fun p => (multi p).flg) =
          ps.filter fun p => (multi p).flg := List.filter_cons_of_neg hflg
      rw [hfilter]
      refine ⟨tx', ?_, hlooped⟩
      rw [multiTxLoop, if_neg hflg, hloop]

/-- The loop is undefined when it comes to a protocol that has no data. -/
theorem multiTxLoop_eq_none {p : MultiProto} (hflg : (multi p).flg = true)
    (hnull : (multi p).data = none) {ps : List MultiProto} (hp : p ∈ ps) :
    ∀ tx, multiTxLoop multi ps tx = none := by
  induction ps with
  | nil => exact absurd hp List.not_mem_nil
  | cons q ps ih =>
    intro tx
    by_cases hq : q = p
    · subst hq
      rw [multiTxLoop, if_pos hflg, hnull]
      cases q with
      | distBasedata => rfl
      | distLen => rfl
    · have hrest := ih ((List.mem_cons.mp hp).resolve_left (Ne.symm hq))
      rw [multiTxLoop]
      split
      · refine Option.bind_eq_none_iff.mpr fun tx' _ => ?_
        rw [hrest]
        rfl
      · exact hrest tx

/-- **`multi_tx`** calls the functions of the protocols whose flag is set, and sends what the last of
    them has written. -/
theorem multiTx_due {s : Multicast}
    (hdata : ∀ p, (s.multi p).flg = true → ∃ m, (s.multi p).data = some m) :
    ∃ s' sent, multiTx s = some (s', sent) ∧ s'.multi = s.multi ∧
      sent.called = MultiProto.all.filter (fun p => (s.multi p).flg) ∧
      (sent.called = [] → sent.datagram = []) ∧
      ∀ p m, sent.called.getLast? = some p → (s.multi p).data = some m →
        sent.datagram = m.slice 0 sent.called.length := by
  have hroom : (0 : Int) + MultiProto.all.length ≤ sockBufLen := by decide
  obtain ⟨tx, hloop, hlooped⟩ : ∃ tx, multiTxLoop s.multi MultiProto.all { s.tx with len := 0 } =
      some (tx, MultiProto.all.filter fun p => (s.multi p).flg) ∧
      TxLooped s.multi (MultiProto.all.filter fun p => (s.multi p).flg) { s.tx with len := 0 } tx :=
    multiTxLoop_due hdata (Int.le_refl 0) hroom
  have hlen : tx.len.toNat = (MultiProto.all.filter fun p => (s.multi p).flg).length := by
    have hadd : tx.len = 0 + ((MultiProto.all.filter fun p => (s.multi p).flg).length : Int) :=
      hlooped.len
    omega
  refine ⟨{ s with tx := tx }, ⟨MultiProto.all.filter fun p => (s.multi p).flg,
    tx.buf.slice 0 tx.len.toNat⟩, ?_, rfl, rfl, ?_, ?_⟩
  · rw [multiTx, hloop]
    rfl
  · intro hnone
    have hzero : tx.len.toNat = 0 := hlen.trans (congrArg List.length hnone)
    show tx.buf.slice 0 tx.len.toNat = []
    rw [hzero, Mem.slice_zero]
  · intro p m hlast hm
    show tx.buf.slice 0 tx.len.toNat =
      m.slice 0 (MultiProto.all.filter fun p => (s.multi p).flg).length
    rw [hlooped.sent p m hlast hm, hlen]

theorem multiTx_eq_none {s : Multicast} {p : MultiProto} (hflg : (s.multi p).flg = true)
    (hnull : (s.multi p).data = none) : multiTx s = none := by
  have hmem : p ∈ MultiProto.all := by cases p <;> decide
  rw [multiTx, multiTxLoop_eq_none hflg hnull hmem]
  rfl

end

end AdhocNode
