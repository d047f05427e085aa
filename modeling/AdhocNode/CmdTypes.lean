/-
  SIGNALLING PACKETS — the data of `include/cmd_handle.h`.

  A MAC frame is a `mac_pdu_t` header followed by sub-packets, each a `cmd_pdu_t` header and its
  payload.  Sender and receiver keep one `cmd_buf_t` for each signalling type.

  Layout (little-endian, bit-fields from the lowest bit up):

      cmd_pdu_t : byte 0 type | byte 1 firstpkg (bit 0), fragment (bit 1), index (bits 2..7)
                  | bytes 2..3 sublen
      mac_pdu_t : bytes 0..3 type | bytes 4..5 frame length | bytes 6..7 crc

  `image` is a header's bytes in memory and `read` the header that lies at a pointer;
  `CmdPdu.read_image` and `MacPdu.read_image` are the round trips.

  `len` of a `cmd_buf_t` is a `UINT32`; it is a `Nat` here, and the code's arithmetic on it goes
  through `toU32`.  `data` has `HELLO_LEN` bytes: of the `Mem` that models it only the offsets below
  `helloLen` belong to the buffer, and every access of the code is checked against that bound.
-/
import AdhocNode.Lib.CMem
import Mathlib.Logic.Function.Basic

namespace AdhocNode

open CMem

/-- `HELLO_LEN`: the bytes of a `cmd_buf_t`'s `data`. -/
def helloLen : Nat := 0x1000

/-- `CMD_HDR_LEN`, that is `sizeof(cmd_pdu_t)`. -/
def cmdHdrLen : Nat := 4

/-- `sizeof(mac_pdu_t)`. -/
def sizeofMacPdu : Nat := 8

/-! ## Signalling types -/

/-- `enum E_CMD_TYPE`. -/
inductive CmdType where
  | macNodeHello
  | distBaseData
  | distReport
  deriving DecidableEq, Repr

/-- `MAX_CMD_TYPE`. -/
def maxCmdType : Nat := 3

namespace CmdType

/-- The enumerator's value, the index of the type's buffer. -/
def toNat : CmdType → Nat
  | macNodeHello => 0
  | distBaseData => 1
  | distReport => 2

/-- The buffer that an index selects; `none` when it lies outside `cmd_buf[MAX_CMD_TYPE]`. -/
def ofNat? : Nat → Option CmdType
  | 0 => some macNodeHello
  | 1 => some distBaseData
  | 2 => some distReport
  | _ => none

/-- The types in the order in which `for (i = 0; i < MAX_CMD_TYPE; i++)` visits them. -/
def all : List CmdType := [macNodeHello, distBaseData, distReport]

@[simp] theorem ofNat?_toNat (t : CmdType) : ofNat? t.toNat = some t := by cases t <;> rfl

theorem toNat_lt (t : CmdType) : t.toNat < maxCmdType := by cases t <;> decide

theorem ofNat?_eq_some {n : Nat} {t : CmdType} : ofNat? n = some t ↔ n = t.toNat := by
  constructor
  · intro h
    unfold ofNat? at h
    split at h <;> cases h <;> rfl
  · rintro rfl; exact ofNat?_toNat t

theorem toNat_inj {t u : CmdType} (h : t.toNat = u.toNat) : t = u := by
  rw [← Option.some.injEq, ← ofNat?_toNat, h, ofNat?_toNat]

theorem ofNat?_eq_none {n : Nat} : ofNat? n = none ↔ maxCmdType ≤ n := by
  unfold maxCmdType
  match n with
  | 0 | 1 | 2 => simp [ofNat?]
  | n + 3 => simp [ofNat?]

theorem exists_of_lt {n : Nat} (h : n < maxCmdType) : ∃ t : CmdType, n = t.toNat := by
  cases ht : ofNat? n with
  | none => exact absurd (ofNat?_eq_none.mp ht) (by omega)
  | some t => exact ⟨t, ofNat?_eq_some.mp ht⟩

theorem nodup_all : all.Nodup := by decide

theorem mem_all (t : CmdType) : t ∈ all := by cases t <;> decide

end CmdType

/-! ## Headers -/

/-- The 6 bits of `index` count modulo 64. -/
instance neZeroIndex : NeZero 64 := ⟨by decide⟩

/-- `cmd_pdu_t`. -/
structure CmdPdu where
  cmdPduType : UInt8
  firstpkg : Bool
  fragment : Bool
  index : Fin 64
  sublen : UInt16
  deriving DecidableEq, Repr

namespace CmdPdu

/-- The byte that holds the three bit-fields. -/
def flags (h : CmdPdu) : Nat := h.firstpkg.toNat + 2 * h.fragment.toNat + 4 * h.index.val

/-- The header's bytes in memory. -/
def image (h : CmdPdu) : Mem
  | 0 => h.cmdPduType
  | 1 => UInt8.ofNat h.flags
  | i + 2 => leBytes h.sublen.toNat i

/-- The header that lies at a pointer. -/
def read (m : Mem) : CmdPdu where
  cmdPduType := m 0
  firstpkg := decide ((m 1).toNat % 2 = 1)
  fragment := decide ((m 1).toNat / 2 % 2 = 1)
  index := ⟨(m 1).toNat / 4, by have := (m 1).toNat_lt; omega⟩
  sublen := UInt16.ofNat (leVal (m.slice 2 2))

/-- `read` looks at the first four bytes only. -/
theorem read_congr {m m' : Mem} (h : ∀ i, i < cmdHdrLen → m i = m' i) : read m = read m' := by
  have hslice : m.slice 2 2 = m'.slice 2 2 :=
    Mem.slice_congr fun i hi => h _ (by unfold cmdHdrLen; omega)
  unfold read
  simp only [h 0 (by decide), h 1 (by decide), hslice]

theorem flags_lt (h : CmdPdu) : h.flags < 256 := by
  have := h.index.isLt
  have := Bool.toNat_le h.firstpkg
  have := Bool.toNat_le h.fragment
  unfold flags; omega

/-- **Round trip** of a sub-packet header. -/
theorem read_image (h : CmdPdu) : read h.image = h := by
  have hflags : (h.image 1).toNat = h.flags := by
    show (UInt8.ofNat h.flags).toNat = _
    rw [UInt8.toNat_ofNat']; exact Nat.mod_eq_of_lt h.flags_lt
  have hsublen : leVal (h.image.slice 2 2) = h.sublen.toNat := by
    rw [show h.image.slice 2 2 = (leBytes h.sublen.toNat).slice 0 2 from rfl, leVal_slice_leBytes]
    exact Nat.mod_eq_of_lt h.sublen.toNat_lt
  have hfirst := Bool.toNat_le h.firstpkg
  have hfrag := Bool.toNat_le h.fragment
  have hbit0 : h.flags % 2 = h.firstpkg.toNat := by unfold flags; omega
  have hbit1 : h.flags / 2 % 2 = h.fragment.toNat := by unfold flags; omega
  have hbits : h.flags / 4 = h.index.val := by unfold flags; omega
  have hbool : ∀ b : Bool, decide (b.toNat = 1) = b := by decide
  unfold read
  simp only [hflags, hsublen, hbit0, hbit1, hbits, hbool, UInt16.ofNat_toNat]
  rfl

end CmdPdu

/-- `mac_pdu_t`. -/
structure MacPdu where
  macPduType : UInt32
  macFrameLen : UInt16
  crc : UInt16
  deriving DecidableEq, Repr

namespace MacPdu

/-- The header's bytes in memory. -/
def image (h : MacPdu) : Mem := fun i =>
  if i < 4 then leBytes h.macPduType.toNat i
  else if i < 6 then leBytes h.macFrameLen.toNat (i - 4)
  else leBytes h.crc.toNat (i - 6)

/-- The header that lies at a pointer. -/
def read (m : Mem) : MacPdu where
  macPduType := UInt32.ofNat (leVal (m.slice 0 4))
  macFrameLen := UInt16.ofNat (leVal (m.slice 4 2))
  crc := UInt16.ofNat (leVal (m.slice 6 2))

/-- `read` looks at the first eight bytes only. -/
theorem read_congr {m m' : Mem} (h : ∀ i, i < sizeofMacPdu → m i = m' i) : read m = read m' := by
  have hslice : ∀ off n, off + n ≤ 8 → m.slice off n = m'.slice off n := fun off n hle =>
    Mem.slice_congr fun i hi => h _ (by unfold sizeofMacPdu; omega)
  unfold read
  rw [hslice 0 4 (by decide), hslice 4 2 (by decide), hslice 6 2 (by decide)]

/-- **Round trip** of a MAC header. -/
theorem read_image (h : MacPdu) : read h.image = h := by
  have htype : leVal (h.image.slice 0 4) = h.macPduType.toNat := by
    rw [show h.image.slice 0 4 = (leBytes h.macPduType.toNat).slice 0 4 from rfl,
      leVal_slice_leBytes]
    exact Nat.mod_eq_of_lt h.macPduType.toNat_lt
  have hlen : leVal (h.image.slice 4 2) = h.macFrameLen.toNat := by
    rw [show h.image.slice 4 2 = (leBytes h.macFrameLen.toNat).slice 0 2 from rfl,
      leVal_slice_leBytes]
    exact Nat.mod_eq_of_lt h.macFrameLen.toNat_lt
  have hcrc : leVal (h.image.slice 6 2) = h.crc.toNat := by
    rw [show h.image.slice 6 2 = (leBytes h.crc.toNat).slice 0 2 from rfl, leVal_slice_leBytes]
    exact Nat.mod_eq_of_lt h.crc.toNat_lt
  unfold read
  rw [htype, hlen, hcrc, UInt32.ofNat_toNat, UInt16.ofNat_toNat, UInt16.ofNat_toNat]

end MacPdu

/-! ## Buffers -/

/-- `cmd_buf_t`: `len` counts the bytes still to send (sender) or received so far (receiver). -/
structure CmdBuf where
  len : Nat
  cmdHdr : CmdPdu
  data : Mem

/-- `data[0..len)`. -/
def CmdBuf.content (b : CmdBuf) : List UInt8 := b.data.slice 0 b.len

@[simp] theorem CmdBuf.length_content (b : CmdBuf) : b.content.length = b.len :=
  Mem.length_slice _ _ _

/-- `all_cmd_buf_t`: one buffer for each signalling type. -/
structure AllCmdBuf where
  cmdBuf : CmdType → CmdBuf

namespace AllCmdBuf

/-- Overwrite the buffer of one type. -/
def set (a : AllCmdBuf) (t : CmdType) (b : CmdBuf) : AllCmdBuf := ⟨Function.update a.cmdBuf t b⟩

@[simp] theorem cmdBuf_set_self (a : AllCmdBuf) (t : CmdType) (b : CmdBuf) :
    (a.set t b).cmdBuf t = b := Function.update_self ..

@[simp] theorem cmdBuf_set_of_ne {a : AllCmdBuf} {t u : CmdType} {b : CmdBuf} (h : u ≠ t) :
    (a.set t b).cmdBuf u = a.cmdBuf u := Function.update_of_ne h ..

theorem cmdBuf_set (a : AllCmdBuf) (t u : CmdType) (b : CmdBuf) :
    (a.set t b).cmdBuf u = if u = t then b else a.cmdBuf u := by
  split
  · rename_i h; rw [h, cmdBuf_set_self]
  · rename_i h; rw [cmdBuf_set_of_ne h]

end AllCmdBuf

/-- No buffer claims more bytes than `data` has. -/
def LensOk (a : AllCmdBuf) : Prop := ∀ t, (a.cmdBuf t).len ≤ helloLen

theorem LensOk.set {a : AllCmdBuf} (h : LensOk a) {t : CmdType} {b : CmdBuf}
    (hb : b.len ≤ helloLen) : LensOk (a.set t b) := by
  intro u
  rw [AllCmdBuf.cmdBuf_set]
  split
  · exact hb
  · exact h u

/-! ## Initialisation -/

/-- What `cmd_buf_init` stores in one buffer; `data` is left as it is. -/
def CmdBuf.init (firstpkg : Bool) (t : CmdType) (b : CmdBuf) : CmdBuf :=
  { b with
    len := 0
    cmdHdr :=
      { cmdPduType := UInt8.ofNat t.toNat, firstpkg, fragment := false, index := 0, sublen := 0 } }

/-- Static storage before `cmd_buf_init`: all bytes zero. -/
def AllCmdBuf.zero : AllCmdBuf := ⟨fun _ => ⟨0, ⟨0, false, false, 0, 0⟩, fun _ => 0⟩⟩

/-- `cmd_buf_init` on `g_tx_cmd_buf`. -/
def cmdBufInitTx (a : AllCmdBuf) : AllCmdBuf := ⟨fun t => (a.cmdBuf t).init true t⟩

/-- `cmd_buf_init` on one element of `g_rx_cmd_buf`. -/
def cmdBufInitRx (a : AllCmdBuf) : AllCmdBuf := ⟨fun t => (a.cmdBuf t).init false t⟩

end AdhocNode
