/-
  THE SENDER OVER TIME — the sub-packets of one type that a series of `tx_cmd` calls writes.

  A buffer is loaded once and sent by as many calls as it takes; the limits of the calls and the
  contents of the other types' buffers vary from call to call.  `txRun` collects the sub-packets of
  the type as the frames hold them.

  `Tiles` is what the receiver needs: the payloads are consecutive pieces of the message, and the
  `firstpkg` and `fragment` bits mark the first and the last of them.  `tx_cmd` copies a header
  before it updates it, so the first sub-packet of a message says `fragment = 0` even when more
  follow, and it always copies from byte 0 of `data`.  Hence (`tiles_iff`) the sub-packets tile the
  message exactly when there is only one of them.
-/
import AdhocNode.CmdTx
import AdhocNode.Lib.Reassembly

namespace AdhocNode

open CMem Packing Reassembly

/-! ## Calls and runs -/

/-- A call of `tx_cmd` as one type sees it: the limit, the frame memory and the other types'
    buffers (`allCmd` also has a buffer for the type itself, which the run replaces). -/
structure TxCall where
  maxMaclen : UInt32
  mactxBuf : Mem
  allCmd : AllCmdBuf
  limit : sizeofMacPdu ≤ maxMaclen.toNat
  lensOk : LensOk allCmd

/-- The room that type `t` finds in the call's frame, behind the MAC header and the sub-packets of
    the types before it. -/
def TxCall.room (c : TxCall) (t : CmdType) : Nat :=
  roomAt cmdHdrLen (lens c.allCmd) t CmdType.all (c.maxMaclen.toNat - sizeofMacPdu)

/-- The calls one after the other on the buffer of type `t`, with the sub-packets they write. -/
def txRun (t : CmdType) : List TxCall → CmdBuf → Option (CmdBuf × List (CmdPdu × List UInt8))
  | [], b => some (b, [])
  | c :: cs, b =>
    (txCmd c.maxMaclen (c.allCmd.set t b) c.mactxBuf).bind fun r =>
      (txRun t cs (r.1.allCmd.cmdBuf t)).map fun q => (q.1, written t r.1 ++ q.2)

/-- A sub-packet in a frame as a fragment. -/
def wireFrag (w : CmdPdu × List UInt8) : Frag (Fin 64) UInt8 :=
  ⟨w.1.firstpkg, w.1.fragment, w.1.index, w.2⟩

/-- The sub-packets are the fragments of the message: cut into non-empty pieces, all with one index,
    `firstpkg` on the first only and `fragment` on all but the last. -/
def Tiles (ws : List (CmdPdu × List UInt8)) (msg : List UInt8) : Prop :=
  ∃ ix cs, (∀ c ∈ cs, c ≠ []) ∧ cs.flatten = msg ∧ ws.map wireFrag = fragments ix true cs

/-- The first call in which the type has room for more than a header has room for the message. -/
def FirstRoomFits (t : CmdType) (msg : Message) (calls : List TxCall) : Prop :=
  ∃ c, calls.find? (fun c => decide (cmdHdrLen < c.room t)) = some c ∧
    msg.bytes.length + cmdHdrLen ≤ c.room t

section Run

variable {t : CmdType} {b b' : CmdBuf} {calls : List TxCall} {ws : List (CmdPdu × List UInt8)}

/-- The sub-packet that a buffer contributes when it sends `n` bytes. -/
def contribution (b : CmdBuf) (n : Nat) : List (CmdPdu × List UInt8) :=
  if n = 0 then [] else [(b.cmdHdr, b.data.slice 0 n)]

/-- What the call sends of the type depends on its room and its own buffer. -/
theorem TxCall.txSent_eq (c : TxCall) (t : CmdType) (b : CmdBuf) :
    txSent c.maxMaclen (c.allCmd.set t b) t = share cmdHdrLen (c.room t) b.len := by
  have hroom : roomAt cmdHdrLen (lens (c.allCmd.set t b)) t CmdType.all
      (c.maxMaclen.toNat - sizeofMacPdu) = c.room t :=
    roomAt_congr fun u _ hu => congrArg CmdBuf.len (AllCmdBuf.cmdBuf_set_of_ne hu)
  have hlen : lens (c.allCmd.set t b) t = b.len := congrArg CmdBuf.len (AllCmdBuf.cmdBuf_set_self ..)
  unfold txSent sentBy
  rw [hroom, hlen]

/-- The step lemma: a call takes a share of the buffer. -/
theorem txRun_cons (c : TxCall) (hb : b.len ≤ helloLen) :
    txRun t (c :: calls) b =
      (txRun t calls (b.after (share cmdHdrLen (c.room t) b.len))).map fun q =>
        (q.1, contribution b (share cmdHdrLen (c.room t) b.len) ++ q.2) := by
  obtain ⟨s, ret, hs, hspec⟩ := txCmd_spec (c.lensOk.set (t := t) hb) c.limit c.mactxBuf
  have hbuf : s.allCmd.cmdBuf t = b.after (share cmdHdrLen (c.room t) b.len) := by
    rw [hspec.bufs, c.txSent_eq, AllCmdBuf.cmdBuf_set_self]
  have hwritten : written t s = contribution b (share cmdHdrLen (c.room t) b.len) := by
    unfold contribution
    split
    · rename_i hz
      exact hspec.written_of_eq (by rw [c.txSent_eq]; exact hz)
    · rename_i hne
      rw [hspec.written_of_ne (by rw [c.txSent_eq]; exact hne), c.txSent_eq,
        AllCmdBuf.cmdBuf_set_self]
  rw [txRun, hs, Option.bind_some, hbuf, hwritten]

theorem len_after_le (hb : b.len ≤ helloLen) (n : Nat) : (b.after n).len ≤ helloLen := by
  rw [CmdBuf.len_after]; omega

/-- The calls are defined. -/
theorem txRun_total (t : CmdType) (calls : List TxCall) (hb : b.len ≤ helloLen) :
    ∃ b' ws, txRun t calls b = some (b', ws) := by
  induction calls generalizing b with
  | nil => exact ⟨b, [], rfl⟩
  | cons c cs ih =>
    obtain ⟨b', ws, h⟩ := ih (len_after_le hb (share cmdHdrLen (c.room t) b.len))
    rw [txRun_cons c hb, h]
    exact ⟨_, _, rfl⟩

/-- An empty buffer sends nothing. -/
theorem txRun_of_empty (hb : b.len = 0) : txRun t calls b = some (b, []) := by
  induction calls with
  | nil => rfl
  | cons c cs ih =>
    have hz : share cmdHdrLen (c.room t) b.len = 0 := share_eq_zero_iff.mpr (Or.inl hb)
    rw [txRun_cons c (by omega), hz, CmdBuf.after_zero, ih]
    rfl

/-- What has left a buffer was written. -/
theorem written_ne_nil (hb : b.len ≤ helloLen) (hne : b.len ≠ 0)
    (h : txRun t calls b = some (b', ws)) (hdone : b'.len = 0) : ws ≠ [] := by
  induction calls generalizing b ws with
  | nil => cases h; exact absurd hdone hne
  | cons c cs ih =>
    rw [txRun_cons c hb] at h
    obtain ⟨q, hq, heq⟩ := Option.map_eq_some_iff.mp h
    obtain ⟨rfl, rfl⟩ := Prod.mk.inj heq
    by_cases hz : share cmdHdrLen (c.room t) b.len = 0
    · rw [hz, CmdBuf.after_zero] at hq
      rw [hz]
      exact ih hb hne hq
    · unfold contribution
      rw [if_neg hz]
      exact List.cons_ne_nil _ _

/-- One sub-packet with the whole message tiles it. -/
theorem tiles_single {h : CmdPdu} {msg : List UInt8} (hmsg : msg ≠ []) (hfirst : h.firstpkg = true)
    (hfrag : h.fragment = false) : Tiles [(h, msg)] msg := by
  refine ⟨h.index, [msg], ?_, List.flatten_singleton .., ?_⟩
  · intro c hc
    rw [List.mem_singleton.mp hc]; exact hmsg
  · rw [List.map_singleton, wireFrag, hfirst, hfrag]; rfl

/-- A first sub-packet that calls itself the last one, with others behind it, tiles nothing. -/
theorem not_tiles_cons {h : CmdPdu} {p msg : List UInt8} (hfrag : h.fragment = false) (hws : ws ≠ []) :
    ¬ Tiles ((h, p) :: ws) msg := by
  rintro ⟨ix, cs, -, -, hmap⟩
  have hlen : ws.length + 1 = cs.length := by
    rw [← length_fragments ix true cs, ← hmap, List.length_map, List.length_cons]
  have hpos := List.length_pos_iff.mpr hws
  have hhead := fragments_getElem? ix true (List.getElem?_eq_getElem (show 0 < cs.length by omega))
  rw [← hmap, List.map_cons, List.getElem?_cons_zero] at hhead
  have hmore : h.fragment = decide (0 + 1 < cs.length) := congrArg Frag.more (Option.some.inj hhead)
  rw [hfrag, decide_eq_true (by omega)] at hmore
  cases hmore

/-- The sub-packets of a freshly loaded buffer. -/
theorem tiles_iff_of_loaded {msg : Message} (hlen : b.len = msg.bytes.length)
    (hcontent : b.content = msg.bytes) (hfirst : b.cmdHdr.firstpkg = true)
    (hfrag : b.cmdHdr.fragment = false) (h : txRun t calls b = some (b', ws)) (hdone : b'.len = 0) :
    Tiles ws msg.bytes ↔ FirstRoomFits t msg calls := by
  have hb : b.len ≤ helloLen := hlen ▸ msg.fits
  have hne : b.len ≠ 0 := hlen ▸ msg.length_ne_zero
  induction calls generalizing ws with
  | nil => cases h; exact absurd hdone hne
  | cons c cs ih =>
    rw [txRun_cons c hb] at h
    obtain ⟨q, hq, heq⟩ := Option.map_eq_some_iff.mp h
    obtain ⟨rfl, rfl⟩ := Prod.mk.inj heq
    unfold FirstRoomFits
    by_cases hroom : cmdHdrLen < c.room t
    · have hz : share cmdHdrLen (c.room t) b.len ≠ 0 := by rw [Ne, share_eq_zero_iff]; omega
      rw [List.find?_cons_of_pos (by simpa using hroom), contribution, if_neg hz]
      by_cases hfit : msg.bytes.length + cmdHdrLen ≤ c.room t
      · -- the message goes out whole, and nothing is left for the calls behind
        have hall : share cmdHdrLen (c.room t) b.len = b.len := share_of_fits (by omega)
        rw [hall, txRun_of_empty (by rw [CmdBuf.len_after]; omega)] at hq
        cases hq
        rw [hall, show b.data.slice 0 b.len = msg.bytes from hcontent]
        exact ⟨fun _ => ⟨c, rfl, hfit⟩, fun _ => tiles_single msg.nonempty hfirst hfrag⟩
      · have hpart : share cmdHdrLen (c.room t) b.len < b.len := by
          rw [share_of_not_fits (by omega)]; omega
        have hrest : q.2 ≠ [] := written_ne_nil (len_after_le hb _)
          (by rw [CmdBuf.len_after]; omega) hq hdone
        refine ⟨fun htiles => absurd htiles (not_tiles_cons hfrag hrest), ?_⟩
        rintro ⟨c', hc', hfit'⟩
        cases hc'
        exact absurd hfit' hfit
    · have hz : share cmdHdrLen (c.room t) b.len = 0 := by rw [share_eq_zero_iff]; omega
      rw [hz, CmdBuf.after_zero] at hq
      rw [List.find?_cons_of_neg (by simpa using hroom), hz]
      exact ih hq

end Run

/-- **Tiling**: of a message, once it is sent, the sub-packets are its fragments iff the first call
    that could send anything of it had room for the whole of it. -/
theorem tiles_iff (t : CmdType) (msg : Message) (b : CmdBuf) (calls : List TxCall) :
    ∃ b' ws, txRun t calls (b.load msg) = some (b', ws) ∧
      (b'.len = 0 → (Tiles ws msg.bytes ↔ FirstRoomFits t msg calls)) := by
  obtain ⟨b', ws, h⟩ := txRun_total t calls (b := b.load msg) msg.fits
  exact ⟨b', ws, h, fun hdone =>
    tiles_iff_of_loaded rfl (CmdBuf.content_load msg b) rfl rfl h hdone⟩

/-- Two bytes, with nothing else to send and frames of 12 and 14 bytes: the first has
    no room for a payload, the second has room for both bytes. -/
theorem tiles_iff_second_call :
    ∃ b' ws, txRun .macNodeHello
        [⟨12, .ofList [], cmdBufInitTx .zero, by decide, fun _ => Nat.zero_le _⟩,
          ⟨14, .ofList [], cmdBufInitTx .zero, by decide, fun _ => Nat.zero_le _⟩]
        (((cmdBufInitTx .zero).cmdBuf .macNodeHello).load ⟨[1, 2], by decide, by decide⟩) =
          some (b', ws) ∧ b'.len = 0 ∧ Tiles ws [1, 2] := by
  obtain ⟨b', ws, h, hiff⟩ := tiles_iff .macNodeHello ⟨[1, 2], by decide, by decide⟩
    ((cmdBufInitTx .zero).cmdBuf .macNodeHello)
    [⟨12, .ofList [], cmdBufInitTx .zero, by decide, fun _ => Nat.zero_le _⟩,
      ⟨14, .ofList [], cmdBufInitTx .zero, by decide, fun _ => Nat.zero_le _⟩]
  have hdone : b'.len = 0 := by
    have hrun := h
    rw [txRun_cons _ (by decide), txRun_cons _ (len_after_le (by decide) _)] at hrun
    cases hrun
    rfl
  exact ⟨b', ws, h, hdone, (hiff hdone).mpr ⟨_, rfl, by decide⟩⟩

/-- Two bytes in two frames with room for one byte each: the first sub-packet says that it is the
    last one. -/
theorem not_tiles_two_frames :
    ∃ b' ws, txRun .macNodeHello
        [⟨13, .ofList [], cmdBufInitTx .zero, by decide, fun _ => Nat.zero_le _⟩,
          ⟨13, .ofList [], cmdBufInitTx .zero, by decide, fun _ => Nat.zero_le _⟩]
        (((cmdBufInitTx .zero).cmdBuf .macNodeHello).load ⟨[1, 2], by decide, by decide⟩) =
          some (b', ws) ∧ b'.len = 0 ∧ ¬ Tiles ws [1, 2] := by
  obtain ⟨b', ws, h⟩ := txRun_total .macNodeHello
    [⟨13, .ofList [], cmdBufInitTx .zero, by decide, fun _ => Nat.zero_le _⟩,
      ⟨13, .ofList [], cmdBufInitTx .zero, by decide, fun _ => Nat.zero_le _⟩]
    (b := ((cmdBufInitTx .zero).cmdBuf .macNodeHello).load ⟨[1, 2], by decide, by decide⟩) (by decide)
  refine ⟨b', ws, h, ?_⟩
  rw [txRun_cons _ (by decide), txRun_cons _ (len_after_le (by decide) _)] at h
  cases h
  exact ⟨rfl, not_tiles_cons rfl (List.cons_ne_nil _ _)⟩

end AdhocNode
