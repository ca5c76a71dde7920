import Hspp.Lib.Memory

/-! # Reading a capture file (`ip_reassembly/pcapw.h`, `ip_reassembly/main.c`)

`pcap_next` returns the captured bytes of the next record, and its header: `caplen` is their
number, `len` the length of the packet on the wire.  At the end of the file it returns `NULL`
and leaves the header, a local variable of `pcapw_recv`, as it is.  `recvpkt` copies `len`
bytes to the data room of a new mbuf; what it does with the packet afterwards is left out.

So a call stores the packet just when it was captured whole and fits the data room, and at the
end of the file nothing is copied only if the header happens to say so (`callOk_iff`). -/

namespace Hspp.Reassembly

open Memory

/-- A record of a capture file. -/
structure CapRecord where
  bytes : List UInt8
  len : ℕ
  caplen_le : bytes.length ≤ len
  len_lt : len < 2 ^ 32

/-- `struct pcap_pkthdr`. -/
structure PcapPkthdr where
  caplen : ℕ
  len : ℕ

/-- The memory, and the records that are not read yet. -/
structure Capture where
  mem : Mem
  file : List CapRecord

/-- What a call meets: where `libpcap` puts a packet, what is in the header before, and the data
room of the mbuf that `rte_pktmbuf_alloc` returns. -/
structure Env where
  buf : ℕ
  unset : PcapPkthdr
  data : ℕ

/-- `RTE_MBUF_DEFAULT_BUF_SIZE` without the headroom. -/
def mbufDataRoom : ℕ := 2048

def pcapNext (s : Capture) (buf : ℕ) (header : PcapPkthdr) : Option ℕ × PcapPkthdr × Capture :=
  match s.file with
  | [] => (none, header, s)
  | r :: file => (some buf, ⟨r.bytes.length, r.len⟩, ⟨write s.mem buf r.bytes, file⟩)

/-- `pcapw_recv`: `*bufptr` and the value returned. -/
def pcapwRecv (s : Capture) (e : Env) : Option ℕ × ℕ × Capture :=
  let (bufptr, header, s) := pcapNext s e.buf e.unset
  (bufptr, header.len, s)

/-- The lengths of the mbuf, and the number of bytes that were read at `ptr` and written to the
data room. -/
structure Received where
  copied : ℕ
  pktLen : ℕ
  dataLen : ℕ

/-- `recvpkt`, with `NULL` as the address 0. -/
def recvpkt (s : Capture) (e : Env) : Capture × Received :=
  let (ptr, len, s) := pcapwRecv s e
  ({ s with mem := write s.mem e.data (bytesAt s.mem (ptr.getD 0) len) },
    ⟨len, len % 2 ^ 32, len % 2 ^ 16⟩)

/-! ### One call -/

/-- The captured bytes of the record are in the mbuf, and nothing else was copied. -/
structure Stores (s : Capture) (e : Env) (r : CapRecord) : Prop where
  data : bytesAt (recvpkt s e).1.mem e.data r.bytes.length = r.bytes
  copied : (recvpkt s e).2.copied = r.bytes.length
  pktLen : (recvpkt s e).2.pktLen = r.bytes.length
  dataLen : (recvpkt s e).2.dataLen = r.bytes.length

/-- The number of bytes that a call may read. -/
def captured (s : Capture) : ℕ := s.file.head?.elim 0 fun r => r.bytes.length

/-- A call stores the packet or nothing, and copies no more than was captured and than there is
room for. -/
structure CallOk (s : Capture) (e : Env) : Prop where
  stores : (∃ r ∈ s.file.head?, Stores s e r) ∨ (recvpkt s e).2.copied = 0
  reads : (recvpkt s e).2.copied ≤ captured s
  writes : (recvpkt s e).2.copied ≤ mbufDataRoom

/-- The packet was captured whole and fits the data room; at the end of the file the header that
nobody sets says that there is none. -/
def Whole (unset : PcapPkthdr) : Option CapRecord → Prop
  | some r => r.len = r.bytes.length ∧ r.len ≤ mbufDataRoom
  | none => unset.len = 0

theorem stores_of_whole {m : Mem} {file : List CapRecord} {e : Env} {r : CapRecord}
    (h : Whole e.unset (some r)) : Stores ⟨m, r :: file⟩ e r := by
  obtain ⟨hlen, hroom⟩ := h
  have hsmall : r.bytes.length ≤ 2048 := hlen ▸ hroom
  have hbuf : bytesAt (write m e.buf r.bytes) e.buf r.bytes.length = r.bytes :=
    holds_write m e.buf r.bytes
  refine ⟨?_, hlen, ?_, ?_⟩
  · simp only [recvpkt, pcapwRecv, pcapNext, Option.getD_some, hlen, hbuf]
    exact holds_write _ _ _
  · simp only [recvpkt, pcapwRecv, pcapNext, hlen]
    exact Nat.mod_eq_of_lt (by omega)
  · simp only [recvpkt, pcapwRecv, pcapNext, hlen]
    exact Nat.mod_eq_of_lt (by omega)

theorem callOk_iff (s : Capture) (e : Env) : CallOk s e ↔ Whole e.unset s.file.head? := by
  obtain ⟨m, file⟩ := s
  cases file with
  | nil =>
      constructor
      · exact fun h => Nat.le_zero.mp h.reads
      · intro h
        have hnone : (recvpkt ⟨m, []⟩ e).2.copied = 0 := h
        exact ⟨.inr hnone, hnone.le, hnone.le.trans (Nat.zero_le _)⟩
  | cons r file =>
      constructor
      · intro h
        have hreads : r.len ≤ r.bytes.length := h.reads
        exact ⟨Nat.le_antisymm hreads r.caplen_le, h.writes⟩
      · intro h
        exact ⟨.inl ⟨r, rfl, stores_of_whole h⟩, h.1.le, h.2⟩

/-! ### Sequences of calls -/

/-- Every call of a sequence is as it should be. -/
def CallsOk : Capture → List Env → Prop
  | _, [] => True
  | s, e :: es => CallOk s e ∧ CallsOk (recvpkt s e).1 es

/-- A call uses up the record that it reads. -/
theorem file_recvpkt (s : Capture) (e : Env) : (recvpkt s e).1.file = s.file.tail := by
  obtain ⟨m, _ | ⟨r, file⟩⟩ := s <;> rfl

/-- **Capture files**: in a sequence of calls, however many records there are, every call is as
it should be exactly when it meets a packet that was captured whole and fits the data room, or
behind the last one a header with the length zero. -/
theorem callsOk_iff (s : Capture) (es : List Env) :
    CallsOk s es ↔ ∀ (i : ℕ) (e : Env), es[i]? = some e → Whole e.unset s.file[i]? := by
  induction es generalizing s with
  | nil => simp [CallsOk]
  | cons e es ih =>
      have hnext : ∀ i, (recvpkt s e).1.file[i]? = s.file[i + 1]? := by
        intro i
        rw [file_recvpkt, List.getElem?_tail]
      rw [CallsOk, callOk_iff, ih, List.head?_eq_getElem?]
      simp only [hnext]
      constructor
      · rintro ⟨hfirst, hrest⟩ i e' he'
        cases i with
        | zero =>
            cases he'
            exact hfirst
        | succ i => exact hrest i e' he'
      · exact fun h => ⟨h 0 e rfl, fun i e' he' => h (i + 1) e' he'⟩

/-- A packet of 60 bytes of which two were captured. -/
def cutRecord : CapRecord := ⟨[8, 0], 60, by decide, by decide⟩

theorem not_callsOk_cutRecord : ¬ ∀ (s : Capture) (es : List Env), CallsOk s es := by
  intro h
  have hcall := (h ⟨fun _ => 0, [cutRecord]⟩ [⟨4096, ⟨0, 0⟩, 8192⟩]).1
  have hreads : 60 ≤ 2 := hcall.reads
  exact absurd hreads (by decide)

end Hspp.Reassembly
