/-
  WHAT MULTI_TX SENDS — the datagram, and what it depends on.

  1. **The datagram** (`multiTx_datagram`) — a send function adds 1 to the length and copies as many
     bytes to the start of the buffer as the new length says.  So the last protocol that is due writes
     every byte that is sent, and the datagram is the beginning of its data.

  2. **Packing** (`packsAll_iff`) — what a protocol contributes is what is sent when it is due alone,
     its first byte.  The datagram is the contributions one behind the other iff the two protocols are
     not both due, or the second one's data happens to begin with both contributions.

  3. **Receiving** (`multiRx_not_sent`) — `multi_rx` receives into the buffer that `multi_tx` sends
     from.  It leaves `g_multi` alone, so the datagrams are those of the run without it.
-/
import AdhocNode.MultiExpiry

namespace AdhocNode

open CMem WhileLoop Runs

/-! ## The datagram -/

section

variable {s : Multicast}

/-- **The datagram** is the beginning of the data of the last protocol that is due. -/
theorem multiTx_datagram {data : MultiProto → Mem} (hdata : ∀ p, (s.multi p).data = some (data p)) :
    ∃ s' sent, multiTx s = some (s', sent) ∧ s'.multi = s.multi ∧
      sent.called = MultiProto.all.filter (fun p => (s.multi p).flg) ∧
      sent.datagram = match sent.called.getLast? with
        | none => []
        | some p => (data p).slice 0 sent.called.length := by
  rcases multiTx_due (s := s) fun p _ => ⟨data p, hdata p⟩ with
    ⟨s', sent, htx, hmulti, hcalled, hidle, hsent⟩
  refine ⟨s', sent, htx, hmulti, hcalled, ?_⟩
  cases hlast : sent.called.getLast? with
  | none => exact hidle (List.getLast?_eq_none_iff.mp hlast)
  | some p => exact hsent p (data p) hlast (hdata p)

end

/-! ## Packing -/

/-- Only one protocol is due. -/
def Multicast.only (s : Multicast) (p : MultiProto) : Multicast :=
  { s with multi := fun q => { s.multi q with flg := q = p } }

/-- What a protocol contributes: what is sent when it is due alone. -/
def Multicast.contribution (s : Multicast) (p : MultiProto) : Option (List UInt8) :=
  (multiTx (s.only p)).map fun x => x.2.datagram

/-- The datagram is what the protocols that are due contribute, one behind the other. -/
def PacksAll (s : Multicast) : Prop :=
  ∃ s' sent parts, multiTx s = some (s', sent) ∧
    (MultiProto.all.filter fun p => (s.multi p).flg).mapM s.contribution = some parts ∧
    sent.datagram = parts.flatten

/-- A protocol contributes its first byte. -/
theorem contribution_eq {s : Multicast} {p : MultiProto} {m : Mem} (hm : (s.multi p).data = some m) :
    s.contribution p = some [m 0] := by
  have hdata : ∀ q, ((s.only p).multi q).flg = true → ∃ m, ((s.only p).multi q).data = some m := by
    intro q hq
    have hqp : q = p := of_decide_eq_true hq
    subst hqp
    exact ⟨m, hm⟩
  rcases multiTx_due hdata with ⟨s', sent, htx, -, hcalled, -, hsent⟩
  have hone : sent.called = [p] := by
    rw [hcalled]
    cases p with
    | distBasedata => rfl
    | distLen => rfl
  have hlast : sent.called.getLast? = some p := by rw [hone, List.getLast?_singleton]
  rw [Multicast.contribution, htx, Option.map_some, hsent p m hlast hm, hone]
  rfl

/-- So each of them does. -/
theorem mapM_contribution {s : Multicast} {data : MultiProto → Mem}
    (hdata : ∀ p, (s.multi p).data = some (data p)) (ps : List MultiProto) :
    ps.mapM s.contribution = some (ps.map fun p => [data p 0]) := by
  induction ps with
  | nil => rfl
  | cons p ps ih =>
    rw [List.mapM_cons, ih, contribution_eq (hdata p)]
    rfl

/-- The protocols are packed iff the datagram is the first bytes of those that are due. -/
theorem packsAll_iff_datagram {s s' : Multicast} {sent : MultiSent} {data : MultiProto → Mem}
    (hdata : ∀ p, (s.multi p).data = some (data p)) (htx : multiTx s = some (s', sent)) :
    PacksAll s ↔ sent.datagram =
      ((MultiProto.all.filter fun p => (s.multi p).flg).map fun p => [data p 0]).flatten := by
  constructor
  · rintro ⟨s'', sent', parts, htx', hmap, hflat⟩
    rw [htx] at htx'
    cases htx'
    rw [mapM_contribution hdata] at hmap
    cases hmap
    exact hflat
  · exact fun hflat => ⟨s', sent, _, htx, mapM_contribution hdata _, hflat⟩

/-- **Packing**: the protocols are packed iff they are not both due, or the data of the second begins
    with the first byte of the first and its own first byte again. -/
theorem packsAll_iff (flg : MultiProto → Bool) (expire : MultiProto → Int) (data : MultiProto → Mem)
    (tx : Databuf) :
    PacksAll ⟨fun p => ⟨flg p, expire p, some (data p)⟩, tx⟩ ↔
      ¬ (flg .distBasedata = true ∧ flg .distLen = true) ∨
        data .distLen 0 = data .distBasedata 0 ∧ data .distLen 1 = data .distLen 0 := by
  let s : Multicast := ⟨fun p => ⟨flg p, expire p, some (data p)⟩, tx⟩
  have hdata : ∀ p, (s.multi p).data = some (data p) := fun _ => rfl
  rcases multiTx_datagram hdata with ⟨s', sent, htx, -, hcalled, hsent⟩
  have hdue : sent.called = MultiProto.all.filter fun p => flg p := hcalled
  show PacksAll s ↔ _
  rw [packsAll_iff_datagram hdata htx, hsent, hdue]
  show _ = ((MultiProto.all.filter fun p => flg p).map fun p => [data p 0]).flatten ↔ _
  cases hb : flg .distBasedata with
  | false =>
    cases hl : flg .distLen with
    | false => simp [MultiProto.all, hb, hl]
    | true => simp [MultiProto.all, hb, hl, Mem.slice]
  | true =>
    cases hl : flg .distLen with
    | false => simp [MultiProto.all, hb, hl, Mem.slice]
    | true => simp [MultiProto.all, hb, hl, Mem.slice]

/-- Both protocols are due, and the second one overwrites the first one's byte. -/
theorem not_packsAll_both : ¬ PacksAll
    ⟨fun p => ⟨true, 10000, some fun _ => if p = .distBasedata then 1 else 2⟩, ⟨0, fun _ => 0⟩⟩ := by
  rintro ⟨s', sent, parts, htx, hmap, hflat⟩
  cases htx
  cases hmap
  exact absurd hflat (by decide)

/-! ## Receiving -/

/-- The memory around `g_databuf[e_tx].buf`, with what lies before the buffer and behind it. -/
def Databuf.around (tx : Databuf) (outside : Around) : Around := fun i =>
  if 0 ≤ i ∧ i < sockBufLen then tx.buf i.toNat else outside i

/-- `multi_rx`, when `recvfrom` finds a datagram, or `none`.  A datagram that is too long is cut; the
    functions that take the data are empty, so their calls leave no more than a list. -/
def multiRx (received : Option (List UInt8)) (outside : Around) (s : Multicast) :
    Option (Multicast × List (Int × PduRx)) :=
  match received with
  | none => some (s, [])
  | some datagram =>
    let recvLen := min datagram.length sockBufLen
    let buf := s.tx.buf.copy 0 (Mem.ofList datagram) recvLen
    if 0 < recvLen then do
      let tx : Databuf := ⟨recvLen, buf⟩
      let calls ← multiDataRx (tx.around outside) tx.len
      return ({ s with tx := tx }, calls)
    else some ({ s with tx := { s.tx with buf := buf } }, [])

/-- A call of the receiver, of the timer or of the sender. -/
inductive MulticastOp where
  | multiRx (received : Option (List UInt8)) (outside : Around)
  | call (op : MultiOp)

/-- The call is one of `multi_rx`. -/
def MulticastOp.isRx : MulticastOp → Bool
  | .multiRx _ _ => true
  | .call _ => false

/-- The state behind a call. -/
def multicastStep : MulticastOp → Multicast → Option Multicast
  | .multiRx received outside, s => (multiRx received outside s).map Prod.fst
  | .call op, s => multiStep op s

/-- What a call sends. -/
def multicastSent : MulticastOp → Multicast → List (List UInt8)
  | .call .multiTx, s => (multiTx s).toList.map fun x => x.2.datagram
  | _, _ => []

/-- The calls, with the datagrams sent so far. -/
def multicastLogStep :
    MulticastOp → Multicast × List (List UInt8) → Option (Multicast × List (List UInt8)) :=
  logged multicastStep multicastSent

/-- `multi_rx` returns, and leaves `g_multi` alone. -/
theorem multiRx_defined (received : Option (List UInt8)) (outside : Around) (s : Multicast) :
    ∃ s' calls, multiRx received outside s = some (s', calls) ∧ s'.multi = s.multi := by
  cases received with
  | none => exact ⟨s, [], rfl, rfl⟩
  | some datagram =>
    by_cases hpos : 0 < min datagram.length sockBufLen
    · let tx : Databuf :=
        ⟨(min datagram.length sockBufLen : Nat),
          s.tx.buf.copy 0 (Mem.ofList datagram) (min datagram.length sockBufLen)⟩
      have hlen : tx.len + 0xFFFF < 2 ^ 31 := by
        show ((min datagram.length sockBufLen : Nat) : Int) + 0xFFFF < 2 ^ 31
        unfold sockBufLen
        omega
      rcases exists_returns_rx (tx.around outside) hlen ⟨0, []⟩ with ⟨t, hreturns⟩
      refine ⟨{ s with tx := tx }, t.calls, ?_, rfl⟩
      rw [multiRx]
      simp only [if_pos hpos]
      show (multiDataRx (tx.around outside) tx.len).bind _ = _
      rw [multiDataRx_eq hreturns]
      rfl
    · refine ⟨_, [], if_neg hpos, rfl⟩

/-- Two states with the same protocols, whose data is there: the buffers may differ. -/
structure SameProtocols (data : MultiProto → Mem) (s t : Multicast) : Prop where
  multi : s.multi = t.multi
  data : ∀ p, (t.multi p).data = some (data p)
  expire : ∀ p, (t.multi p).expire ≠ 0

section

variable {data : MultiProto → Mem} {s t : Multicast}

/-- `multi_tx` sends the same from both states, and leaves both with these protocols. -/
theorem SameProtocols.multiTx (h : SameProtocols data s t) :
    ∃ s' t', multiStep .multiTx s = some s' ∧ multiStep .multiTx t = some t' ∧
      SameProtocols data s' t' ∧
      multicastSent (.call .multiTx) s = multicastSent (.call .multiTx) t := by
  have hdata : ∀ p, (s.multi p).data = some (data p) := by
    rw [h.multi]
    exact h.data
  rcases multiTx_datagram hdata with ⟨s', sent, hs, hsm, hscalled, hsent⟩
  rcases multiTx_datagram h.data with ⟨t', sent', ht, htm, htcalled, hsent'⟩
  have hcalled : sent.called = sent'.called := by rw [hscalled, htcalled, h.multi]
  refine ⟨s', t', ?_, ?_, ⟨?_, ?_, ?_⟩, ?_⟩
  · rw [multiStep, hs, Option.map_some]
  · rw [multiStep, ht, Option.map_some]
  · rw [hsm, htm, h.multi]
  · rw [htm]
    exact h.data
  · rw [htm]
    exact h.expire
  · show (AdhocNode.multiTx s).toList.map _ = (AdhocNode.multiTx t).toList.map _
    rw [hs, ht, Option.toList_some, Option.toList_some, List.map_singleton, List.map_singleton,
      hsent, hsent', hcalled]

/-- So does the timer, which sends nothing. -/
theorem SameProtocols.expireHandle (h : SameProtocols data s t) (icount : Int32) :
    ∃ s' t', multiStep (.expireHandle icount) s = some s' ∧
      multiStep (.expireHandle icount) t = some t' ∧ SameProtocols data s' t' := by
  have hexpire : ∀ p, (s.multi p).expire ≠ 0 := by
    rw [h.multi]
    exact h.expire
  rcases expireHandle_defined hexpire icount with ⟨s', hs, hsm⟩
  rcases expireHandle_defined h.expire icount with ⟨t', ht, htm⟩
  refine ⟨s', t', hs, ht, ⟨funext fun p => ?_, fun p => ?_, fun p => ?_⟩⟩
  · rw [hsm, htm, h.multi]
  · rw [htm]
    exact h.data p
  · rw [htm]
    exact h.expire p

end

/-- **Receiving is not sent**: from the state behind `dist_init`, with data pointers that have been set,
    every run sends the datagrams that it sends without its calls of `multi_rx`. -/
theorem multiRx_not_sent (s : Multicast) (data : MultiProto → Mem) (ops : List MulticastOp) :
    ∃ s' t' sent,
      run multicastLogStep (multiStart s fun p => some (data p), []) ops = some (s', sent) ∧
      run multicastLogStep (multiStart s fun p => some (data p), [])
        (ops.filter fun op => !op.isRx) = some (t', sent) := by
  have hstart : SameProtocols data (multiStart s fun p => some (data p))
      (multiStart s fun p => some (data p)) :=
    ⟨rfl, fun _ => rfl, fun _ => (by decide : (10000 : Int) ≠ 0)⟩
  have hhidden : ∀ s t op, SameProtocols data s t → op.isRx = true →
      ∃ s', multicastStep op s = some s' ∧ SameProtocols data s' t ∧ multicastSent op s = [] := by
    intro s t op h hrx
    cases op with
    | multiRx received outside =>
      rcases multiRx_defined received outside s with ⟨s', calls, hs', hmulti⟩
      refine ⟨s', ?_, ⟨hmulti.trans h.multi, h.data, h.expire⟩, rfl⟩
      rw [multicastStep, hs', Option.map_some]
    | call op => exact absurd hrx Bool.false_ne_true
  have hshown : ∀ s t op, SameProtocols data s t → op.isRx = false →
      ∃ s' t', multicastStep op s = some s' ∧ multicastStep op t = some t' ∧
        SameProtocols data s' t' ∧ multicastSent op s = multicastSent op t := by
    intro s t op h hrx
    cases op with
    | multiRx received outside => exact nomatch hrx
    | call op =>
      cases op with
      | expireHandle icount =>
        rcases h.expireHandle icount with ⟨s', t', hs', ht', hst⟩
        exact ⟨s', t', hs', ht', hst, rfl⟩
      | multiTx => exact h.multiTx
  rcases exists_run_logged_filter hhidden hshown hstart ops [] with
    ⟨s', t', sent, hs', ht', -⟩
  exact ⟨s', t', sent, hs', ht'⟩

end AdhocNode
