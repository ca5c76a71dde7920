import Hspp.Lib.Access
import Hspp.Flags
import Hspp.LinkInfo
import Hspp.Types

/-! # `rta_to_str` (`yalin/rtattr.h`)

One attribute as text.  What is read of the memory is recorded (`Access`), but for
`IFLA_LINKINFO`, which has its own decoder; `sizeof(struct rtattr)` is 4, and the structures
of the statistics and of the map are arrays of little-endian numbers without gaps.

The payload of an address, and of every type without a case, is turned into hex by a loop of
`strncat` over a local array (`hexLoop`), which has 1000 or 10000 bytes whatever the length
of the payload is. -/

namespace Hspp

open CInt Memory Memory.Access Text

def IFLA_ADDRESS : ℕ := 1
def IFLA_BROADCAST : ℕ := 2
def IFLA_IFNAME : ℕ := 3
def IFLA_MTU : ℕ := 4
def IFLA_LINK : ℕ := 5
def IFLA_QDISC : ℕ := 6
def IFLA_STATS : ℕ := 7
def IFLA_TXQLEN : ℕ := 13
def IFLA_MAP : ℕ := 14
def IFLA_OPERSTATE : ℕ := 16
def IFLA_LINKMODE : ℕ := 17
def IFLA_STATS64 : ℕ := 23
def IFLA_AF_SPEC : ℕ := 26
def IFLA_GROUP : ℕ := 27
def IFLA_PROMISCUITY : ℕ := 30
def IFLA_NUM_TX_QUEUES : ℕ := 31
def IFLA_NUM_RX_QUEUES : ℕ := 32
def IFLA_CARRIER : ℕ := 33
def IFLA_CARRIER_CHANGES : ℕ := 35
def IFLA_PROTO_DOWN : ℕ := 39

/-- The blocks of the `switch`, but for `IFLA_LINKINFO`. -/
inductive RtaCase where
  | ifname
  | address
  | stats64
  | stats
  | map
  | promiscuity
  /-- A number of this width. -/
  | num (width : ℕ)
  | afSpec
  | default
deriving DecidableEq, Repr

/-- The labels of the blocks. -/
def rtaCase (type : ℕ) : RtaCase :=
  if type = IFLA_IFNAME then .ifname
  else if type ∈ [IFLA_ADDRESS, IFLA_BROADCAST] then .address
  else if type = IFLA_STATS64 then .stats64
  else if type = IFLA_STATS then .stats
  else if type = IFLA_MAP then .map
  else if type = IFLA_PROMISCUITY then .promiscuity
  else if type ∈ [IFLA_PROTO_DOWN, IFLA_OPERSTATE, IFLA_LINKMODE, IFLA_CARRIER] then .num 1
  else if type ∈ [IFLA_NUM_TX_QUEUES, IFLA_NUM_RX_QUEUES, IFLA_MTU, IFLA_LINK, IFLA_GROUP,
    IFLA_QDISC, IFLA_CARRIER_CHANGES, IFLA_TXQLEN] then .num 4
  else if type = IFLA_AF_SPEC then .afSpec
  else .default

/-! ### The hex loops -/

/-- The body of the loop: `b` is formatted into an array of `sublen` bytes and appended. -/
def hexRound (suffix : List UInt8) (sublen : ℕ) (str : List UInt8) (b : UInt8) : List UInt8 :=
  let sub := snprintf [] sublen (printNum 16 2 b.toNat ++ suffix)
  strncat str sub (strlen sub)

/-- The array of `size` zeros, and what is written behind it, after the rounds for `data`. -/
def hexLoop (suffix : List UInt8) (sublen size : ℕ) (data : List UInt8) : List UInt8 :=
  data.foldl (hexRound suffix sublen) (List.replicate size 0)

/-- `substr`: `"%02x:"` for each byte. -/
def substrLoop : List UInt8 → List UInt8 := hexLoop (ascii ":") 100 1000

/-- `dstr`: `"%02x"` for each byte. -/
def dstrLoop : List UInt8 → List UInt8 := hexLoop [] 6 10000

/-! ### The function -/

/-- What stands before each number of `struct rtnl_link_stats64`. -/
def stats64Labels : List String :=
  [" \n\trx_packets:", " tx_packets:", " rx_bytes:", " tx_bytes:", " \n\trx_errors:",
    " tx_errors:", " rx_dropped:", " tx_dropped:", " \n\tmulticast:", " collisions:",
    " rx_length_errors:", " rx_over_errors:", " \n\trx_crc_errors:", " rx_frame_errors:",
    " rx_fifo_errors:", " \n\trx_missed_errors:", " tx_aborted_errors:", " tx_carrier_errors:",
    " \n\ttx_fifo_errors:", " tx_heartbeat_errors:", " tx_window_errors:",
    " \n\trx_compressed:", " tx_compressed:"]

/-- What stands before each number of `struct rtnl_link_stats`. -/
def statsLabels : List String :=
  [" \n\trx_packets:", " tx_packets:", " rx_bytes:", " tx_bytes:", " rx_errors:",
    " \n\ttx_errors:", " rx_dropped:", " tx_dropped:", " multicast:", " collisions:",
    " \n\trx_length_errors:", " rx_over_errors:", " rx_crc_errors:", " rx_frame_errors:",
    " \n\trx_fifo_errors:", " rx_missed_errors:", " tx_aborted_errors:",
    " \n\ttx_carrier_errors:", " tx_fifo_errors:", " tx_heartbeat_errors:",
    " \n\ttx_window_errors:", " rx_compressed:", " tx_compressed:"]

/-- What stands before each number of `struct rtnl_link_ifmap`. -/
def mapLabels : List String :=
  [" \n\tmem_start:", " mem_end:", " \n\tbase_addr:", " irq:", " dma:", " port:"]

/-- Numbers in decimal, each behind its label. -/
def labelled (labels : List String) (values : List ℕ) : List UInt8 :=
  (labels.zip values).flatMap fun p => ascii p.1 ++ printNum 10 1 p.2

/-- One block of the `switch`: the text that is formatted for an attribute whose type has this
name, for a buffer of `len` bytes. -/
def rtaBlock (name : List UInt8) (rta len : ℕ) : RtaCase → Access (Except Halt (List UInt8))
  | .ifname => do
      let s ← str (rta + 4) len
      return .ok (name ++ ascii " <" ++ s ++ ascii ">")
  | .address => do
      let rtaLen ← num rta 2
      let data ← bytes (rta + 4) (toUnsigned 64 (rtaLen - sizeofRtattr))
      return (inArray 1000 (substrLoop data)).map fun substr =>
        name ++ ascii " <" ++ substr ++ ascii ">"
  | .stats64 => do
      let st ← nums (rta + 4) (List.replicate 23 8)
      return .ok (name ++ labelled stats64Labels st ++ ascii " \n")
  | .stats => do
      let st ← nums (rta + 4) (List.replicate 23 4)
      return .ok (name ++ labelled statsLabels st)
  | .map => do
      let ifmap ← nums (rta + 4) [8, 8, 8, 2, 1, 1]
      return .ok (name ++ labelled mapLabels ifmap)
  | .promiscuity => do
      let promisc ← num (rta + 4) 4
      return .ok (name ++ ascii (if promisc = 0 then " <promisc=off>" else " <promisc=on>"))
  | .num width => do
      let n ← num (rta + 4) width
      return .ok (name ++ ascii " <" ++ printNum 10 1 n ++ ascii ">")
  | .afSpec => return .ok (ascii "IFLA_AF_SPEC <unsupported yet>")
  | .default => do
      let rtaLen ← num rta 2
      let data ← bytes (rta + 4) (toUnsigned 64 (rtaLen - sizeofRtattr))
      -- what `hexdump` prints
      let _ ← bytes rta rtaLen
      return (inArray 10000 (dstrLoop data)).map fun dstr =>
        name ++ ascii " unsupport-data=<" ++ dstr ++ ascii ">"

/-- The text for an attribute of another type than `IFLA_LINKINFO`. -/
def rtaText (rta len : ℕ) : Access (Except Halt (List UInt8)) := do
  let type ← num (rta + 2) 2
  rtaBlock (rtaTypeToStr type) rta len (rtaCase type)

/-- `rta_to_str`: the contents of `str` when it returns. -/
def rtaToStr (m : Mem) (rta len : ℕ) : Except Halt (List UInt8) :=
  if rtattrType m rta = IFLA_LINKINFO then rtaToStrIflaLinkinfo m rta [] len
  else ((rtaText rta len).val m).map (snprintf [] len)

/-! ### What the hex loops leave in their arrays -/

/-- The hex text of a byte string, each byte two digits and `suffix`. -/
def hexText (suffix data : List UInt8) : List UInt8 :=
  data.flatMap fun b => printNum 16 2 b.toNat ++ suffix

/-- After every round nothing is written behind the `size` bytes of the array, and at the end
they hold the hex text of all bytes. -/
def HexInside (suffix : List UInt8) (sublen size : ℕ) (data : List UInt8) : Prop :=
  (∀ k ≤ data.length, (hexLoop suffix sublen size (data.take k)).length = size) ∧
    cstr (hexLoop suffix sublen size data) = hexText suffix data

theorem length_hexText (suffix : List UInt8) : ∀ data : List UInt8,
    (hexText suffix data).length = data.length * (suffix.length + 2)
  | [] => by simp [hexText]
  | b :: data => by
      have htwo : (printNum 16 2 b.toNat).length = 2 := length_printNum (by norm_num) b.toNat_lt
      have ih := length_hexText suffix data
      rw [hexText] at ih ⊢
      rw [List.flatMap_cons, List.length_append, List.length_append, htwo, ih, List.length_cons]
      ring

section loop

variable {suffix : List UInt8} {sublen size : ℕ}

/-- What one round appends is the text of the byte. -/
theorem cstr_sub (hnul : (0 : UInt8) ∉ suffix) (hsub : suffix.length + 2 < sublen) (b : UInt8) :
    cstr (snprintf [] sublen (printNum 16 2 b.toNat ++ suffix)) =
      printNum 16 2 b.toNat ++ suffix := by
  have htwo : (printNum 16 2 b.toNat).length = 2 := length_printNum (by norm_num) b.toNat_lt
  have hno : (0 : UInt8) ∉ printNum 16 2 b.toNat ++ suffix := by
    rw [List.mem_append, not_or]
    exact ⟨nul_notMem_printNum (by norm_num) le_rfl, hnul⟩
  rw [snprintf_of_lt _ (by rw [List.length_append]; omega), cstr_append_of_not_mem hno]
  simp [cstr]

theorem hexLoop_eq_strncats (data : List UInt8) :
    hexLoop suffix sublen size data = strncats (List.replicate size 0) (data.map fun b =>
      (snprintf [] sublen (printNum 16 2 b.toNat ++ suffix),
        strlen (snprintf [] sublen (printNum 16 2 b.toNat ++ suffix)))) := by
  rw [hexLoop, strncats, List.foldl_map]
  rfl

theorem flatMap_pieces (hnul : (0 : UInt8) ∉ suffix) (hsub : suffix.length + 2 < sublen)
    (data : List UInt8) :
    ((data.map fun b => (snprintf [] sublen (printNum 16 2 b.toNat ++ suffix),
      strlen (snprintf [] sublen (printNum 16 2 b.toNat ++ suffix)))).flatMap fun p =>
        (cstr p.1).take p.2) = hexText suffix data := by
  rw [List.flatMap_map, hexText]
  refine List.flatMap_congr fun b _ => ?_
  simp only [strlen, List.take_length]
  exact cstr_sub hnul hsub b

theorem cstr_hexLoop (hnul : (0 : UInt8) ∉ suffix) (hsub : suffix.length + 2 < sublen)
    (hsize : 0 < size) (data : List UInt8) :
    cstr (hexLoop suffix sublen size data) = hexText suffix data := by
  have hempty : cstr (List.replicate size 0) = [] :=
    List.length_eq_zero_iff.mp (strlen_replicate hsize)
  rw [hexLoop_eq_strncats, cstr_strncats, flatMap_pieces hnul hsub, hempty, List.nil_append]

theorem length_hexLoop_iff (hnul : (0 : UInt8) ∉ suffix) (hsub : suffix.length + 2 < sublen)
    (hsize : 0 < size) (data : List UInt8) :
    (hexLoop suffix sublen size data).length = size ↔
      data.length * (suffix.length + 2) < size := by
  have hfits := strncats_fits_iff (data.map fun b =>
      (snprintf [] sublen (printNum 16 2 b.toNat ++ suffix),
        strlen (snprintf [] sublen (printNum 16 2 b.toNat ++ suffix))))
    (show strlen (List.replicate size 0) < (List.replicate size (0 : UInt8)).length by
      rwa [strlen_replicate hsize, List.length_replicate])
  rw [flatMap_pieces hnul hsub, strlen_replicate hsize, List.length_replicate, Nat.zero_add,
    length_hexText] at hfits
  rw [hexLoop_eq_strncats, hfits]

/-- The array is big enough just for the payloads whose whole text fits. -/
theorem hexInside_iff (hnul : (0 : UInt8) ∉ suffix) (hsub : suffix.length + 2 < sublen)
    (hsize : 0 < size) (data : List UInt8) :
    HexInside suffix sublen size data ↔ data.length * (suffix.length + 2) < size := by
  constructor
  · rintro ⟨hlen, -⟩
    have hall := hlen data.length le_rfl
    rwa [List.take_length, length_hexLoop_iff hnul hsub hsize] at hall
  · refine fun hlt => ⟨fun k hk => ?_, cstr_hexLoop hnul hsub hsize data⟩
    rw [length_hexLoop_iff hnul hsub hsize, List.length_take, Nat.min_eq_left hk]
    exact (Nat.mul_le_mul_right _ hk).trans_lt hlt

end loop

/-! ### When a text is returned -/

/-- The payload fits the array that its text is built in. -/
def FitsArray (type payloadLen : ℕ) : Prop :=
  match rtaCase type with
  | .address => payloadLen ≤ 333
  | .default => payloadLen ≤ 4999
  | _ => True

theorem inArray_hexLoop_iff {suffix : List UInt8} {sublen size : ℕ} (hnul : (0 : UInt8) ∉ suffix)
    (hsub : suffix.length + 2 < sublen) (hsize : 0 < size) (data : List UInt8) :
    (∃ text, inArray size (hexLoop suffix sublen size data) = .ok text) ↔
      data.length * (suffix.length + 2) < size := by
  have hge : size ≤ (hexLoop suffix sublen size data).length := by
    have hgrow := length_strncats (data.map fun b =>
        (snprintf [] sublen (printNum 16 2 b.toNat ++ suffix),
          strlen (snprintf [] sublen (printNum 16 2 b.toNat ++ suffix))))
      (List.replicate size 0) (by rwa [strlen_replicate hsize, List.length_replicate])
    rw [← hexLoop_eq_strncats, List.length_replicate] at hgrow
    omega
  rw [← length_hexLoop_iff hnul hsub hsize]
  unfold inArray
  split_ifs with h
  · simp [h.ne']
  · simp [le_antisymm (Nat.not_lt.mp h) hge]

theorem inArray_substrLoop_iff (data : List UInt8) :
    (∃ text, inArray 1000 (substrLoop data) = .ok text) ↔ data.length ≤ 333 := by
  rw [substrLoop, inArray_hexLoop_iff (by decide) (by decide) (by norm_num)]
  change data.length * 3 < 1000 ↔ _
  omega

theorem inArray_dstrLoop_iff (data : List UInt8) :
    (∃ text, inArray 10000 (dstrLoop data) = .ok text) ↔ data.length ≤ 4999 := by
  rw [dstrLoop, inArray_hexLoop_iff (by decide) (by decide) (by norm_num)]
  change data.length * 2 < 10000 ↔ _
  omega

variable {m : Mem} {rta : ℕ}

/-- **Texts**: for a type other than `IFLA_LINKINFO` a text is returned when the payload fits
the array that the text is built in, and only then. -/
theorem rtaToStr_eq_ok_iff (hlen : 4 ≤ rtattrLen m rta) (htype : rtattrType m rta ≠ IFLA_LINKINFO)
    (len : ℕ) :
    (∃ str, rtaToStr m rta len = .ok str) ↔ FitsArray (rtattrType m rta) (rtattrLen m rta - 4) := by
  have hmap (x : Except Halt (List UInt8)) (f : List UInt8 → List UInt8) :
      (∃ str, x.map f = .ok str) ↔ ∃ str, x = .ok str := by
    cases x <;> simp [Except.map]
  have hpay : toUnsigned 64 (rtattrLen m rta - sizeofRtattr) = rtattrLen m rta - 4 :=
    rtattrPayloadLen_of_le hlen
  rw [rtaToStr, if_neg htype, hmap]
  change (∃ text, (rtaBlock _ rta len (rtaCase (rtattrType m rta))).val m = .ok text) ↔ _
  unfold FitsArray
  cases rtaCase (rtattrType m rta) with
  | address =>
      simp only [rtaBlock, val_bind, val_num, val_bytes, val_pure]
      rw [hmap, inArray_substrLoop_iff, length_bytesAt]
      exact iff_of_eq (congrArg (· ≤ 333) hpay)
  | default =>
      simp only [rtaBlock, val_bind, val_num, val_bytes, val_pure]
      rw [hmap, inArray_dstrLoop_iff, length_bytesAt]
      exact iff_of_eq (congrArg (· ≤ 4999) hpay)
  | _ => exact iff_of_true ⟨_, rfl⟩ trivial

/-- The bytes that the hex loops go through. -/
def hexData (m : Mem) (rta : ℕ) : List UInt8 := bytesAt m (rta + 4) (rtattrPayloadLen m rta)

theorem substrInside_iff (data : List UInt8) :
    HexInside (ascii ":") 100 1000 data ↔ data.length ≤ 333 := by
  rw [hexInside_iff (by decide) (by decide) (by norm_num)]
  change data.length * 3 < 1000 ↔ _
  omega

theorem dstrInside_iff (data : List UInt8) :
    HexInside [] 6 10000 data ↔ data.length ≤ 4999 := by
  rw [hexInside_iff (by decide) (by decide) (by norm_num)]
  change data.length * 2 < 10000 ↔ _
  omega

/-- If there is a hex loop for the attribute, it stays inside its array and leaves the hex text
of the payload there. -/
def HexFits (m : Mem) (rta : ℕ) : Prop :=
  match rtaCase (rtattrType m rta) with
  | .address => HexInside (ascii ":") 100 1000 (hexData m rta)
  | .default => HexInside [] 6 10000 (hexData m rta)
  | _ => True

/-- **Hex texts**: the loop for an attribute stays inside its array, with the NUL, and leaves the
hex text of the payload there, exactly when the payload has at most 333 bytes for an address
and at most 4999 bytes for a type without a case. -/
theorem hexFits_iff (hlen : 4 ≤ rtattrLen m rta) :
    HexFits m rta ↔ FitsArray (rtattrType m rta) (rtattrLen m rta - 4) := by
  have hdata : (hexData m rta).length = rtattrLen m rta - 4 := by
    rw [hexData, length_bytesAt, rtattrPayloadLen_of_le hlen]
  rw [← hdata]
  unfold HexFits FitsArray
  cases rtaCase (rtattrType m rta) with
  | address => exact substrInside_iff _
  | default => exact dstrInside_iff _
  | _ => exact Iff.rfl

/-- The address of an Ethernet interface. -/
def etherAttr : Mem := write (fun _ => 0) 0 [10, 0, 1, 0, 0x02, 0x42, 0xac, 0x11, 0, 2]

theorem hexFits_iff_ether :
    HexFits etherAttr 0 ↔ FitsArray (rtattrType etherAttr 0) (rtattrLen etherAttr 0 - 4) :=
  hexFits_iff (by decide)

/-- The next hops of a route with 625 of them, `RTA_MULTIPATH`: 5000 bytes of a type without a
case. -/
def multipathAttr : Mem := write (fun _ => 0) 0 [0x8c, 0x13, 9, 0]

theorem not_hexFits_multipath :
    ¬ ∀ (m : Mem) (rta : ℕ), 4 ≤ rtattrLen m rta → rtattrLen m rta ≤ 16384 →
      rtattrType m rta ≠ IFLA_LINKINFO → HexFits m rta := by
  intro h
  have hfits := h multipathAttr 0 (by decide) (by decide) (by decide)
  have hcase : rtaCase (rtattrType multipathAttr 0) = .default := by decide
  have hlen : (hexData multipathAttr 0).length = 5000 := by
    rw [hexData, length_bytesAt]
    decide
  unfold HexFits at hfits
  rw [hcase] at hfits
  have hle := (dstrInside_iff _).mp hfits
  omega

end Hspp
