import Hspp.Carrydump
import Hspp.Lib.Lines
import Hspp.Monitor

/-! # What the monitor prints (`yalin/dump.h`)

The texts that `netlink_msg_dump` prints to `stdout` and `stderr` for a message, when it
returns.  A dump function prints the fields of its structure, each on a line with its label and
perhaps a name for the number, and then a line for every attribute.  `rta_to_str` may itself
print before the line of its attribute: a `hexdump` of an attribute that it has no case for, a
`carrydump` of an unknown kind of link, a line for every attribute of a VLAN that is not
supported.

`netlinkMsgPrint` and `netlinkMsgDump` return for the same messages (`netlinkMsgPrint_returns`);
what has been printed when a dump does not return is left out. -/

namespace Hspp

open CInt Loop Memory Rows Text

/-- What was printed to `stdout` and to `stderr`. -/
@[ext] structure Printed where
  out : List UInt8
  err : List UInt8
deriving DecidableEq, Repr

instance : Append Printed := ⟨fun p q => ⟨p.out ++ q.out, p.err ++ q.err⟩⟩

instance : EmptyCollection Printed := ⟨⟨[], []⟩⟩

@[simp] theorem Printed.out_append (p q : Printed) : (p ++ q).out = p.out ++ q.out := rfl

@[simp] theorem Printed.err_append (p q : Printed) : (p ++ q).err = p.err ++ q.err := rfl

@[simp] theorem Printed.out_empty : (∅ : Printed).out = [] := rfl

@[simp] theorem Printed.err_empty : (∅ : Printed).err = [] := rfl

@[simp] theorem Printed.empty_append (p : Printed) : ∅ ++ p = p := rfl

@[simp] theorem Printed.append_empty (p : Printed) : p ++ ∅ = p :=
  Printed.ext (List.append_nil _) (List.append_nil _)

theorem Printed.append_assoc (p q r : Printed) : p ++ q ++ r = p ++ (q ++ r) :=
  Printed.ext (List.append_assoc ..) (List.append_assoc ..)

/-- Texts one after the other. -/
def Printed.join (ps : List Printed) : Printed := ⟨ps.flatMap Printed.out, ps.flatMap Printed.err⟩

@[simp] theorem Printed.join_nil : Printed.join [] = ∅ := rfl

@[simp] theorem Printed.join_cons (p : Printed) (ps : List Printed) :
    Printed.join (p :: ps) = p ++ .join ps := Printed.ext List.flatMap_cons List.flatMap_cons

/-- What the texts depend on besides the memory. -/
structure Host where
  /-- `AF_MAX`. -/
  afMax : ℕ
  /-- The answers of `if_indextoname`. -/
  ifName : ℕ → Option SingleLine
  /-- The address of the receive buffer, for `%p`. -/
  buf : ℕ

/-! ### Dumps of buffers -/

/-- What `hexdump` prints. -/
def hexdumpText (m : Mem) (buffer bufferlen : ℕ) : List UInt8 :=
  (dumpLines 16 hexdumpLine 0 (bytesAt m buffer bufferlen)).flatMap (· ++ [10])

theorem hexdumpText_exits (m : Mem) (buffer bufferlen : ℕ) :
    Exits (hexdumpLoop m) ⟨buffer, bufferlen, 0, []⟩ (hexdumpText m buffer bufferlen) :=
  dumpLoop_exits (by norm_num) hexdumpLine m buffer bufferlen 0 []

/-- `"IFLA_LINKINFO Unknown-link-kind"`. -/
def unknownLinkKind : SingleLine := ⟨ascii "IFLA_LINKINFO Unknown-link-kind", by decide⟩

/-- What `carrydump` prints for an `IFLA_LINKINFO` of unknown kind. -/
def unknownKindDump (m : Mem) (rootRta : ℕ) : List UInt8 :=
  carryHead (some unknownLinkKind) ++
    carryRows (rows 8 (bytesAt m rootRta (rtattrLen m rootRta))) ++ ascii "\x7d;\n"

theorem carryPrints_unknownKindDump (m : Mem) (rootRta : ℕ) :
    CarryPrints (some unknownLinkKind) m rootRta (rtattrLen m rootRta)
      (unknownKindDump m rootRta) :=
  carryPrints_iff.mpr rfl

/-! ### Attributes -/

def IFLA_VLAN_UNSPEC : ℕ := 0
def IFLA_VLAN_EGRESS_QOS : ℕ := 3
def IFLA_VLAN_INGRESS_QOS : ℕ := 4

/-- The line for a VLAN attribute that is not supported. -/
def vlanSkip (host : Host) (m : Mem) (nrta : ℕ) : List UInt8 :=
  if rtattrType m nrta ∈ [IFLA_VLAN_UNSPEC, IFLA_VLAN_EGRESS_QOS, IFLA_VLAN_INGRESS_QOS] then
    ascii "unsupport ... skip type=0x" ++ printNum 16 4 (rtattrType m nrta) ++ ascii " @0x" ++
      printNum 16 1 (host.buf + nrta) ++ ascii "\n"
  else []

/-- What the loop over the VLAN attributes in the payload of `rta` prints. -/
def vlanSkips (host : Host) (m : Mem) (rta : ℕ) : List UInt8 :=
  match run (traced (fun s => vlanSkip host m s.nrta) (vlanLoop m)) 16384
      (⟨rtattrPayloadPtr rta, toSigned 64 (rtattrPayloadLen m rta), ⟨0, 0, 0⟩⟩, []) with
  | .inl _ => []
  | .inr (_, out) => out

/-- What `rta_to_str_IFLA_LINKINFO` prints when it returns. -/
def linkinfoPrints (host : Host) (m : Mem) (rootRta : ℕ) : List UInt8 :=
  let rta := rtattrNestNext rootRta
  match rtattrReadStr m rta 100 with
  | .error _ => []
  | .ok (strbuf, _) =>
      if strbuf = ascii "vlan" then
        match rtattrNext m rta (rtattrLen m rta) with
        | (none, _) => []
        | (some rta, _) =>
            if rtattrType m rta = IFLA_INFO_DATA then vlanSkips host m rta
            else unknownKindDump m rootRta
      else unknownKindDump m rootRta

/-- What `rta_to_str` prints when it returns. -/
def rtaToStrPrints (host : Host) (m : Mem) (rta : ℕ) : Printed :=
  if rtattrType m rta = IFLA_LINKINFO then ⟨linkinfoPrints host m rta, []⟩
  else match rtaCase (rtattrType m rta) with
    | .afSpec => ∅
    | .default => ⟨hexdumpText m rta (rtattrLen m rta), rtaTypeErr (rtattrType m rta)⟩
    | _ => ⟨[], rtaTypeErr (rtattrType m rta)⟩

/-- `"attr[%zd]: %s\n"`. -/
def attrLine (i : ℕ) (str : List UInt8) : List UInt8 :=
  ascii "attr[" ++ printNum 10 1 i ++ ascii "]: " ++ str ++ ascii "\n"

/-- What a round of the loop of a dump function prints. -/
def attrPrints (host : Host) (strlen : ℕ) (m : Mem) (s : AttrLoop) : Printed :=
  if rtaOk m s.rta s.rtaLen then
    match rtaToStr m s.rta strlen with
    | .error _ => ∅
    | .ok str => rtaToStrPrints host m s.rta ++ ⟨attrLine s.passed.length (cstr str), []⟩
  else ∅

/-- The loop of the dump function for `kind`, with what it prints. -/
def printAttrs (host : Host) (kind : MsgKind) (m : Mem) (hdr : ℕ) : Except Halt Printed :=
  match run (traced (attrPrints host kind.strlen m) (attrLoop rtaToStr kind.strlen m)) (2 ^ 62)
      (kind.start m hdr, ∅) with
  | .inl _ => .error .spins
  | .inr ((_, some halt), _) => .error halt
  | .inr ((_, none), p) => .ok p

/-! ### Fields -/

/-- The conversions `%u`, `%d` and `0x%x` of 32 bits. -/
inductive Conv where
  | u
  | d
  | x
deriving DecidableEq, Repr

/-- The number that is printed. -/
def Conv.value : Conv → ℕ → ℤ
  | .u, n => n
  | .d, n => toSigned 32 n
  | .x, n => n

def Conv.text : Conv → ℕ → List UInt8
  | .u, n => printNum 10 1 n
  | .d, n => printInt (toSigned 32 n)
  | .x, n => ascii "0x" ++ printNum 16 1 n

/-- A field of a structure as it is printed: its label, where it lies, how its number is
printed, and what stands behind the number. -/
structure Field where
  label : String
  offset : ℕ
  width : ℕ
  conv : Conv
  note : Host → ℕ → Except Halt (List UInt8)

/-- Nothing behind the number. -/
def noNote : Host → ℕ → Except Halt (List UInt8) := fun _ _ => .ok []

/-- `" <%s>"`. -/
def angled (name : Host → ℕ → Except Halt (List UInt8)) (host : Host) (n : ℕ) :
    Except Halt (List UInt8) :=
  (name host n).map fun s => ascii " <" ++ s ++ ascii ">"

/-- `" (%s)"`. -/
def inParens (name : Host → ℕ → Except Halt (List UInt8)) (host : Host) (n : ℕ) :
    Except Halt (List UInt8) :=
  (name host n).map fun s => ascii " (" ++ s ++ ascii ")"

/-- `if_indextoname`, as `%s` prints its result. -/
def ifIndextoname (host : Host) (index : ℕ) : List UInt8 :=
  (host.ifName index).elim (ascii "(null)") SingleLine.text

/-- The header. -/
def hdrFields : List Field :=
  [⟨"nlmsg_len", 0, 4, .u, noNote⟩,
    ⟨"nlmsg_type", 4, 2, .u, angled fun _ n => .ok (nlmsgTypeToStr n)⟩,
    ⟨"nlmsg_flags(get)", 6, 2, .x, angled fun _ n =>
      (nlmsgFlagsToStrGet (BitVec.ofNat 32 n) 100).map cstr⟩,
    ⟨"nlmsg_flags(new)", 6, 2, .x, angled fun _ n =>
      (nlmsgFlagsToStrNew (BitVec.ofNat 32 n) 100).map cstr⟩,
    ⟨"nlmsg_seq", 8, 4, .u, noNote⟩,
    ⟨"nlmsg_pid", 12, 4, .u, noNote⟩]

/-- `struct ifinfomsg`; its second byte is padding. -/
def ifinfoFields : List Field :=
  [⟨"ifi_family", 0, 1, .u, angled fun host n => ifaFamilyToStr host.afMax n⟩,
    ⟨"ifi_type", 2, 2, .u, angled fun _ n => .ok (ifiTypeToStr n)⟩,
    ⟨"ifi_index", 4, 4, .d, noNote⟩,
    ⟨"ifi_flags", 8, 4, .x, angled fun _ n => ifiFlagsToStr (BitVec.ofNat 32 n) 100⟩,
    ⟨"ifi_change", 12, 4, .x, noNote⟩]

/-- `struct ifaddrmsg`. -/
def ifaddrFields : List Field :=
  [⟨"ifa_family", 0, 1, .u, inParens fun host n => ifaFamilyToStr host.afMax n⟩,
    ⟨"ifa_prefixlen", 1, 1, .u, noNote⟩,
    ⟨"ifa_flags", 2, 1, .x, noNote⟩,
    ⟨"ifa_scope", 3, 1, .u, noNote⟩,
    ⟨"ifa_index", 4, 4, .d, inParens fun host n => .ok (ifIndextoname host n)⟩]

/-- `struct rtmsg`. -/
def rtmsgFields : List Field :=
  [⟨"rtm_family", 0, 1, .u, inParens fun host n => ifaFamilyToStr host.afMax n⟩,
    ⟨"rtm_dst_len", 1, 1, .u, noNote⟩,
    ⟨"rtm_src_len", 2, 1, .u, noNote⟩,
    ⟨"rtm_tos", 3, 1, .u, noNote⟩,
    ⟨"rtm_table", 4, 1, .u, noNote⟩,
    ⟨"rtm_protocol", 5, 1, .u, noNote⟩,
    ⟨"rtm_scope", 6, 1, .u, noNote⟩,
    ⟨"rtm_type", 7, 1, .u, inParens fun _ n => rtnTypeToStr n⟩,
    ⟨"rtm_flags", 8, 4, .x, noNote⟩]

/-- `struct ndmsg`. -/
def ndmsgFields : List Field :=
  [⟨"ndm_family", 0, 1, .u, noNote⟩,
    ⟨"ndm_pad1", 1, 1, .u, noNote⟩,
    ⟨"ndm_pad2", 2, 2, .u, noNote⟩,
    ⟨"ndm_ifindex", 4, 4, .d, noNote⟩,
    ⟨"ndm_state", 8, 2, .u, noNote⟩,
    ⟨"ndm_flags", 10, 1, .x, noNote⟩,
    ⟨"ndm_type", 11, 1, .u, noNote⟩]

/-- The bytes of the field in the structure at `p`, as a number. -/
def Field.num (f : Field) (m : Mem) (p : ℕ) : ℕ := leNat (bytesAt m (p + f.offset) f.width)

/-- The line of a field, `"<label>: <number><note>"`. -/
def Field.line (f : Field) (num : ℕ) (note : List UInt8) : List UInt8 :=
  ascii f.label ++ ascii ": " ++ f.conv.text num ++ note

/-- The lines of the fields of the structure at `p`. -/
def printFields (host : Host) (m : Mem) (p : ℕ) : List Field → Except Halt (List UInt8)
  | [] => .ok []
  | f :: fs => do
      let note ← f.note host (f.num m p)
      let text ← printFields host m p fs
      return f.line (f.num m p) note ++ [10] ++ text

/-! ### Messages -/

/-- The common body of the dump functions: the fixed structure, and then the attributes. -/
def printStruct (fields : List Field) (kind : MsgKind) (host : Host) (m : Mem) (hdr : ℕ) :
    Except Halt Printed := do
  let text ← printFields host m (fixedPtr hdr) fields
  let attrs ← printAttrs host kind m hdr
  return ⟨text, []⟩ ++ attrs

def netlinkLinkMsgPrint : Host → Mem → ℕ → Except Halt Printed := printStruct ifinfoFields .link

def netlinkAddrMsgPrint : Host → Mem → ℕ → Except Halt Printed := printStruct ifaddrFields .addr

def netlinkRouteMsgPrint : Host → Mem → ℕ → Except Halt Printed := printStruct rtmsgFields .route

def netlinkNeighMsgPrint : Host → Mem → ℕ → Except Halt Printed := printStruct ndmsgFields .neigh

/-- The `default` of the `switch`. -/
def unknownMsgPrint (m : Mem) (hdr : ℕ) : Printed :=
  ⟨[], ascii "netlink_msg_dump: unknown type(" ++ printNum 10 1 (nlmsgType m hdr) ++
    ascii ")\n" ++ hexdumpText m hdr (nlmsgLen m hdr)⟩

def beginLine : List UInt8 := ascii "-----NLMSG-BEGIN---------------------------"

def endLine : List UInt8 := ascii "-----NLMSG-END-----------------------------"

/-- The `switch` of `netlink_msg_dump`. -/
def msgKindPrint (host : Host) (m : Mem) (hdr : ℕ) : Except Halt Printed :=
  match msgKind (nlmsgType m hdr) with
  | some .link => netlinkLinkMsgPrint host m hdr
  | some .addr => netlinkAddrMsgPrint host m hdr
  | some .route => netlinkRouteMsgPrint host m hdr
  | some .neigh => netlinkNeighMsgPrint host m hdr
  | none => .ok (unknownMsgPrint m hdr)

/-- `netlink_msg_dump`: what it prints when it returns.  `nlmsg_type_to_str` is called twice. -/
def netlinkMsgPrint (host : Host) (m : Mem) (hdr : ℕ) : Except Halt Printed := do
  let head ← printFields host m hdr hdrFields
  let body ← msgKindPrint host m hdr
  return ⟨beginLine ++ [10] ++ head, nlmsgTypeErr (nlmsgType m hdr) ++
    nlmsgTypeErr (nlmsgType m hdr)⟩ ++ body ++ ⟨endLine ++ [10], []⟩

/-! ### When a message is printed -/

theorem printAttrs_returns (host : Host) (kind : MsgKind) (m : Mem) (hdr : ℕ) :
    (printAttrs host kind m hdr).map (fun _ => ()) = dumpAttrs kind m hdr := by
  unfold printAttrs dumpAttrs
  rw [← run_traced (attrPrints host kind.strlen m) _ _ ∅]
  rcases run (traced (attrPrints host kind.strlen m) (attrLoop rtaToStr kind.strlen m)) (2 ^ 62)
    (kind.start m hdr, ∅) with s | ⟨⟨passed, halt⟩, p⟩
  · rfl
  · cases halt <;> rfl

/-- Two calls and what is made of their results return when both do. -/
theorem returns_bind {α β γ : Type} (x : Except Halt α) (y : Except Halt β) (f : α → β → γ) :
    (x >>= fun a => y >>= fun b => pure (f a b)).map (fun _ => ()) =
      x.map (fun _ => ()) >>= fun _ => y.map fun _ => () := by
  cases x <;> cases y <;> rfl

theorem printHdr_returns (host : Host) (m : Mem) (hdr : ℕ) :
    (printFields host m hdr hdrFields).map (fun _ => ()) =
      nlmsgFlagsToStrGet (nlmsgFlags m hdr) 100 >>= fun _ =>
        (nlmsgFlagsToStrNew (nlmsgFlags m hdr) 100).map fun _ => () := by
  simp only [hdrFields, printFields, noNote, angled, Field.num, nlmsgFlags]
  generalize nlmsgFlagsToStrGet _ 100 = get
  generalize nlmsgFlagsToStrNew _ 100 = new
  cases get <;> cases new <;> rfl

theorem printStruct_returns (fields : List Field) (kind : MsgKind) (host : Host) (m : Mem)
    (hdr : ℕ) : (printStruct fields kind host m hdr).map (fun _ => ()) =
      (printFields host m (fixedPtr hdr) fields).map (fun _ => ()) >>= fun _ =>
        dumpAttrs kind m hdr := by
  have hbind := returns_bind (printFields host m (fixedPtr hdr) fields)
    (printAttrs host kind m hdr) fun text attrs => (⟨text, []⟩ : Printed) ++ attrs
  rw [printAttrs_returns] at hbind
  exact hbind

theorem leNat_byte (m : Mem) (o : ℕ) : leNat (bytesAt m o 1) = (m o).toNat := by
  simp [bytesAt, leNat]

/-- The dump functions, one for each kind. -/
theorem msgKindPrint_returns (host : Host) (m : Mem) (hdr : ℕ) :
    (msgKindPrint host m hdr).map (fun _ => ()) = match msgKind (nlmsgType m hdr) with
      | some .link => netlinkLinkMsgDump host.afMax m hdr
      | some .addr => netlinkAddrMsgDump host.afMax m hdr
      | some .route => netlinkRouteMsgDump host.afMax m hdr
      | some .neigh => netlinkNeighMsgDump m hdr
      | none => return () := by
  rw [msgKindPrint]
  have hfamily : leNat (bytesAt m (fixedPtr hdr + 0) 1) = msgFamily m hdr := leNat_byte m _
  cases msgKind (nlmsgType m hdr) with
  | none => rfl
  | some kind =>
      cases kind with
      | link =>
          simp only [netlinkLinkMsgPrint, printStruct_returns, ifinfoFields, printFields, noNote,
            angled, Field.num, hfamily, netlinkLinkMsgDump, ifiFlagsOf]
          generalize ifiFlagsToStr _ 100 = flags
          cases ifaFamilyToStr host.afMax (msgFamily m hdr) <;> cases flags <;> rfl
      | addr =>
          simp only [netlinkAddrMsgPrint, printStruct_returns, ifaddrFields, printFields, noNote,
            inParens, Field.num, hfamily, netlinkAddrMsgDump]
          cases ifaFamilyToStr host.afMax (msgFamily m hdr) <;> rfl
      | route =>
          have htype : leNat (bytesAt m (fixedPtr hdr + 7) 1) = rtmType m hdr := leNat_byte m _
          simp only [netlinkRouteMsgPrint, printStruct_returns, rtmsgFields, printFields, noNote,
            inParens, Field.num, hfamily, htype, netlinkRouteMsgDump]
          cases ifaFamilyToStr host.afMax (msgFamily m hdr) <;>
            cases rtnTypeToStr (rtmType m hdr) <;> rfl
      | neigh =>
          simp only [netlinkNeighMsgPrint, printStruct_returns, ndmsgFields, printFields, noNote,
            netlinkNeighMsgDump]
          rfl

/-- A message is printed just when it is dumped, and otherwise for the same reason not. -/
theorem netlinkMsgPrint_returns (host : Host) (m : Mem) (hdr : ℕ) :
    (netlinkMsgPrint host m hdr).map (fun _ => ()) = netlinkMsgDump host.afMax m hdr := by
  have hbind := returns_bind (printFields host m hdr hdrFields) (msgKindPrint host m hdr)
    fun head body => (⟨beginLine ++ [10] ++ head, nlmsgTypeErr (nlmsgType m hdr) ++
      nlmsgTypeErr (nlmsgType m hdr)⟩ : Printed) ++ body ++ ⟨endLine ++ [10], []⟩
  rw [printHdr_returns, msgKindPrint_returns] at hbind
  refine hbind.trans ?_
  rw [netlinkMsgDump]
  cases nlmsgFlagsToStrGet (nlmsgFlags m hdr) 100 <;>
    cases nlmsgFlagsToStrNew (nlmsgFlags m hdr) 100 <;> rfl

end Hspp
