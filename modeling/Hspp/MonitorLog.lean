import Hspp.MonitorLines

/-! # The monitor's log

The log of a monitor is what it prints to `stdout`: an entry for every message received
(`prints_iff`).  From the log, or from the beginning of it up to any byte, the header and the
fixed structure of the messages are read back in order (`log_reads_back`). -/

namespace Hspp

open CInt Feed Loop Memory Records Text

/-! ### Runs that print -/

/-- One more dump, behind what is printed so far.  Once a dump does not return nothing more
happens. -/
def printMore : Except Halt Printed → Except Halt Printed → Except Halt Printed × ℤ
  | .ok p, .ok q => (.ok (p ++ q), 0)
  | .ok _, .error halt => (.error halt, -1)
  | .error halt, _ => (.error halt, -1)

/-- `dump_msg` with what it prints. -/
def printMsg (host : Host) : Handler (Except Halt Printed) := fun st m hdr =>
  printMore st (netlinkMsgPrint host m hdr)

/-- What `netlink_listen` itself prints to `stderr`. -/
def listenErr : List Event → List UInt8
  | [] => []
  | .datagram _ :: es => listenErr es
  | .fail errno :: es =>
      if errno = .EINTR ∨ errno = .EAGAIN ∨ errno = .ENOBUFS then listenErr es else []
  | .eof :: _ => ascii "EOF on netlink\n"

/-- The monitor dumps every message received, ends as the events say, and has then printed `p`. -/
def Prints (host : Host) (buf : Mem) (es : List Event) (p : Printed) : Prop :=
  ∃ q, Exits (netlinkListen (printMsg host)) (.recv buf (es.map Event.toRecv) (.ok ∅) [])
    ⟨endOf es, .ok q, planned buf es⟩ ∧ p = q ++ ⟨[], listenErr es⟩

/-- The message of a call is dumped, and `p` is printed. -/
def CallPrints (host : Host) (c : Call) (p : Printed) : Prop := netlinkMsgPrint host c.1 c.2 = .ok p

/-- The handler takes all calls when each message is printed, and otherwise it has no text in
the end. -/
theorem deliver_printMsg (host : Host) : ∀ (cs : List Call) (p : Printed),
    (∀ ps, List.Forall₂ (CallPrints host) cs ps →
        deliver (printMsg host) (.ok p) cs = ⟨.ok (p ++ .join ps), cs, none⟩) ∧
      ∀ q, (deliver (printMsg host) (.ok p) cs).st = .ok q →
        ∃ ps, List.Forall₂ (CallPrints host) cs ps
  | [], p => by
      refine ⟨fun ps hps => ?_, fun q _ => ⟨[], .nil⟩⟩
      cases hps
      rw [Printed.join_nil, Printed.append_empty]
      rfl
  | c :: cs, p => by
      cases hc : netlinkMsgPrint host c.1 c.2 with
      | error halt =>
          have htake : take (printMsg host) (.ok p) c = (.error halt, -1) :=
            congrArg (printMore (.ok p)) hc
          rw [deliver, feed_cons_of_halts (by rw [htake]; norm_num), htake]
          refine ⟨fun ps hps => ?_, fun q hq => by cases hq⟩
          cases hps with
          | cons hp _ =>
              rw [CallPrints, hc] at hp
              cases hp
      | ok p' =>
          have htake : take (printMsg host) (.ok p) c = (.ok (p ++ p'), 0) :=
            congrArg (printMore (.ok p)) hc
          obtain ⟨ih, ih'⟩ := deliver_printMsg host cs (p ++ p')
          rw [deliver] at ih ih' ⊢
          rw [feed_cons_of_not (by rw [htake]; norm_num), htake]
          constructor
          · intro ps hps
            cases hps with
            | cons hp hrest =>
                rw [CallPrints, hc] at hp
                cases hp
                rw [ih _ hrest, Printed.join_cons, Printed.append_assoc]
          · intro q hq
            obtain ⟨ps, hps⟩ := ih' q hq
            exact ⟨p' :: ps, .cons hc hps⟩

/-- A monitor has printed the texts of its messages, one after the other. -/
theorem prints_iff {host : Host} {buf : Mem} {es : List Event} {p : Printed} :
    Prints host buf es p ↔ ∃ ps, List.Forall₂ (CallPrints host) (planned buf es) ps ∧
      p = .join ps ++ ⟨[], listenErr es⟩ := by
  have hrun : Exits (netlinkListen (printMsg host)) _ _ := netlinkListen_run es buf (.ok ∅) []
  obtain ⟨hall, hsome⟩ := deliver_printMsg host (planned buf es) ∅
  constructor
  · rintro ⟨q, hx, rfl⟩
    have hst := congrArg Outcome.st (hx.unique hrun)
    obtain ⟨ps, hps⟩ := hsome q hst.symm
    refine ⟨ps, hps, ?_⟩
    rw [hall ps hps] at hst
    cases hst
    rfl
  · rintro ⟨ps, hps, rfl⟩
    rw [hall ps hps] at hrun
    exact ⟨_, hrun, rfl⟩

/-- The monitor prints just when it survives. -/
theorem exists_prints_iff (host : Host) (buf : Mem) (es : List Event) :
    (∃ p, Prints host buf es p) ↔ Survives host.afMax buf es := by
  have hcall (c : Call) : (∃ p, CallPrints host c p) ↔
      netlinkMsgDump host.afMax c.1 c.2 = .ok () := by
    rw [← netlinkMsgPrint_returns host]
    unfold CallPrints
    cases netlinkMsgPrint host c.1 c.2 <;> simp [Except.map]
  have hprints : (∃ p, Prints host buf es p) ↔
      ∀ c ∈ planned buf es, netlinkMsgDump host.afMax c.1 c.2 = .ok () := by
    simp only [prints_iff, ← hcall, ← exists_forall₂_iff]
    exact ⟨fun ⟨_, ps, hps, _⟩ => ⟨ps, hps⟩, fun ⟨ps, hps⟩ => ⟨_, ps, hps, rfl⟩⟩
  have hrun : Exits (netlinkListen (dumpMsg host.afMax)) _ _ := netlinkListen_run es buf none []
  obtain ⟨hall, hsome⟩ := deliver_dumpMsg host.afMax (planned buf es)
  rw [hprints]
  constructor
  · intro hok
    rw [hall hok] at hrun
    exact hrun
  · intro hsurvives
    exact hsome (congrArg Outcome.st (hsurvives.unique hrun)).symm

/-! ### Reading the log -/

/-- The entries of a log that are closed, and the numbers in them. -/
def readLog (log : List UInt8) : List (List ℤ) :=
  (entries (· == endLine) (lines log)).map readEntry

/-- The number of a field, in the bytes of its structure. -/
def Field.get (f : Field) (bytes : List UInt8) : ℤ :=
  f.conv.value (leNat ((bytes.drop f.offset).take f.width))

/-- The numbers that a message holds: those of its header, and for the types that have one those
of its fixed structure, as far as they are printed. -/
def Message.fields (msg : Message) : List ℤ :=
  hdrFields.map (·.get msg.bytes) ++ (fieldsOf msg.type).map (·.get (msg.bytes.drop 16))

/-- A message is as long as the fixed structure that its type says it has. -/
def Message.HasFixed (msg : Message) : Prop :=
  ∀ kind, msgKind msg.type = some kind → 16 + kind.fixed ≤ msg.bytes.length

theorem Field.num_eq {f : Field} {m : Mem} {p : ℕ} {bytes : List UInt8} (h : Holds m p bytes)
    (hle : f.offset + f.width ≤ bytes.length) : f.conv.value (f.num m p) = f.get bytes := by
  have hbytes := (h.drop (k := f.offset) (by omega)).bytesAt_eq (k := f.width)
    (by rw [List.length_drop]; omega)
  rw [Field.num, hbytes, Field.get]

theorem le_of_mem_hdrFields : ∀ f ∈ hdrFields, f.offset + f.width ≤ 16 := by
  simp [hdrFields]

theorem le_of_mem_fields (kind : MsgKind) : ∀ f ∈ kind.fields, f.offset + f.width ≤ kind.fixed := by
  cases kind <;> simp [MsgKind.fields, ifinfoFields, ifaddrFields, rtmsgFields, ndmsgFields,
    MsgKind.fixed, sizeofIfinfomsg, sizeofIfaddrmsg, sizeofRtmsg, sizeofNdmsg]

/-! ### What the numbers say of a message -/

/-- The messages have the same header, and the same fixed structure but for the byte of
padding in `struct ifinfomsg`. -/
def Message.Alike (msg msg' : Message) : Prop :=
  msg.bytes.take 16 = msg'.bytes.take 16 ∧ ∀ kind, msgKind msg.type = some kind →
    ∀ i < kind.fixed, ¬ (kind = .link ∧ i = 1) → msg.bytes[16 + i]? = msg'.bytes[16 + i]?

theorem Conv.value_inj {conv : Conv} {n n' : ℕ} (hn : n < 2 ^ 32) (hn' : n' < 2 ^ 32)
    (h : conv.value n = conv.value n') : n = n' := by
  cases conv with
  | u => exact Int.ofNat_inj.mp h
  | x => exact Int.ofNat_inj.mp h
  | d =>
      have hu := congrArg (toUnsigned 32) (show toSigned 32 n = toSigned 32 n' from h)
      rwa [toUnsigned_toSigned, toUnsigned_toSigned, toUnsigned_ofNat hn,
        toUnsigned_ofNat hn'] at hu

/-- The number of a field determines its bytes. -/
theorem Field.getElem?_of_get_eq {f : Field} {bs bs' : List UInt8} (hw : f.width ≤ 4)
    (hle : f.offset + f.width ≤ bs.length) (hle' : f.offset + f.width ≤ bs'.length)
    (h : f.get bs = f.get bs') {i : ℕ} (hi : f.offset ≤ i) (hi' : i < f.offset + f.width) :
    bs[i]? = bs'[i]? := by
  have hlen (cs : List UInt8) (hcs : f.offset + f.width ≤ cs.length) :
      ((cs.drop f.offset).take f.width).length = f.width := by
    rw [List.length_take, List.length_drop]
    omega
  have hlt (cs : List UInt8) (hcs : f.offset + f.width ≤ cs.length) :
      leNat ((cs.drop f.offset).take f.width) < 2 ^ 32 :=
    calc leNat ((cs.drop f.offset).take f.width) < 256 ^ f.width :=
          (leNat_lt _).trans_eq (congrArg (256 ^ ·) (hlen cs hcs))
      _ ≤ 256 ^ 4 := Nat.pow_le_pow_right (by norm_num) hw
  have hbytes := leNat_inj ((hlen bs hle).trans (hlen bs' hle').symm)
    (Conv.value_inj (hlt bs hle) (hlt bs' hle') h)
  have hget (cs : List UInt8) : ((cs.drop f.offset).take f.width)[i - f.offset]? = cs[i]? := by
    rw [List.getElem?_take_of_lt (by omega), List.getElem?_drop, Nat.add_sub_cancel' hi]
  rw [← hget bs, hbytes, hget]

/-- Fields that have the same numbers in two structures, for the bytes that they cover. -/
theorem getElem?_of_map_get_eq {fs : List Field} {bs bs' : List UInt8} {n : ℕ}
    (hw : ∀ f ∈ fs, f.width ≤ 4) (hle : ∀ f ∈ fs, f.offset + f.width ≤ n) (hn : n ≤ bs.length)
    (hn' : n ≤ bs'.length) (h : fs.map (·.get bs) = fs.map (·.get bs')) {i : ℕ}
    (hi : ∃ f ∈ fs, f.offset ≤ i ∧ i < f.offset + f.width) : bs[i]? = bs'[i]? := by
  obtain ⟨f, hf, hge, hlt⟩ := hi
  have hfn := hle f hf
  exact Field.getElem?_of_get_eq (hw f hf) (hfn.trans hn) (hfn.trans hn')
    (List.map_inj_left.mp h f hf) hge hlt

theorem hdrFields_cover : ∀ i < 16, ∃ f ∈ hdrFields, f.offset ≤ i ∧ i < f.offset + f.width := by
  decide

theorem fields_cover (kind : MsgKind) : ∀ i < kind.fixed, ¬ (kind = .link ∧ i = 1) →
    ∃ f ∈ kind.fields, f.offset ≤ i ∧ i < f.offset + f.width := by
  cases kind <;> decide

theorem width_le_of_mem_hdrFields : ∀ f ∈ hdrFields, f.width ≤ 4 := by simp [hdrFields]

theorem width_le_of_mem_fields (kind : MsgKind) : ∀ f ∈ kind.fields, f.width ≤ 4 := by
  cases kind <;> simp [MsgKind.fields, ifinfoFields, ifaddrFields, rtmsgFields, ndmsgFields]

/-- Messages with the same numbers are alike. -/
theorem Message.alike_of_fields_eq {msg msg' : Message} (hfixed : msg.HasFixed)
    (hfixed' : msg'.HasFixed) (h : msg.fields = msg'.fields) : msg.Alike msg' := by
  have hhdr := msg.hdr_le
  have hhdr' := msg'.hdr_le
  obtain ⟨hhead, hrest⟩ := List.append_inj h rfl
  have hsame : ∀ i < 16, msg.bytes[i]? = msg'.bytes[i]? := fun i hi =>
    getElem?_of_map_get_eq width_le_of_mem_hdrFields le_of_mem_hdrFields hhdr hhdr' hhead
      (hdrFields_cover i hi)
  have htake : msg.bytes.take 16 = msg'.bytes.take 16 := by
    apply List.ext_getElem?
    intro i
    obtain hi | hi := Nat.lt_or_ge i 16
    · rw [List.getElem?_take_of_lt hi, List.getElem?_take_of_lt hi, hsame i hi]
    · rw [List.getElem?_take_eq_none hi, List.getElem?_take_eq_none hi]
  have htype : msg.type = msg'.type := by
    have hslice (bs : List UInt8) : (bs.drop 4).take 2 = ((bs.take 16).drop 4).take 2 := by
      rw [List.drop_take, List.take_take]
      rfl
    rw [Message.type, Message.type, hslice, htake, ← hslice]
  refine ⟨htake, fun kind hkind i hi hpad => ?_⟩
  have hle := hfixed kind hkind
  have hle' := hfixed' kind (htype ▸ hkind)
  rw [← htype, fieldsOf, hkind] at hrest
  have hget := getElem?_of_map_get_eq (width_le_of_mem_fields kind) (le_of_mem_fields kind)
    (by rw [List.length_drop]; omega) (by rw [List.length_drop]; omega) hrest
    (fields_cover kind i hi hpad)
  rwa [List.getElem?_drop, List.getElem?_drop] at hget

/-! ### The log of a run -/

/-- The numbers are printed from the bytes of the message. -/
theorem fieldsAt_eq {m : Mem} {o : ℕ} {msg : Message} (h : Holds m o msg.bytes)
    (hfixed : msg.HasFixed) : fieldsAt m o = msg.fields := by
  have hhdr := msg.hdr_le
  unfold fieldsAt Message.fields
  rw [Message.nlmsgType_eq h]
  congr 1
  · exact List.map_congr_left fun f hf => Field.num_eq h ((le_of_mem_hdrFields f hf).trans hhdr)
  · unfold fieldsOf
    cases hkind : msgKind msg.type with
    | none => rfl
    | some kind =>
        have hle := hfixed kind hkind
        refine List.map_congr_left fun f hf => Field.num_eq (h.drop (k := 16) (by omega)) ?_
        have hf := le_of_mem_fields kind f hf
        rw [List.length_drop]
        omega

/-- The entries of a log, without the lines that close them. -/
theorem exists_texts {host : Host} : ∀ {cs : List Call} {ps : List Printed},
    List.Forall₂ (CallPrints host) cs ps → (∀ c ∈ cs, PlainNames c.1 c.2) →
    ∃ texts : List (List UInt8), ps.flatMap Printed.out = texts.flatMap (· ++ (endLine ++ [10])) ∧
      (∀ t ∈ texts, AllLines (fun l => ¬ endLine <+: l) t) ∧
      texts.map (fun t => readEntry (lines t)) = cs.map fun c => fieldsAt c.1 c.2
  | _, _, .nil, _ => ⟨[], rfl, fun t ht => absurd ht List.not_mem_nil, rfl⟩
  | c :: cs, p :: ps, .cons hp hps, hplain => by
      obtain ⟨text, hout, hall, hread⟩ := lines_netlinkMsgPrint (hplain c (.head _)) hp
      obtain ⟨texts, houts, halls, hreads⟩ := exists_texts hps fun c hc => hplain c (.tail _ hc)
      refine ⟨text :: texts, ?_, List.forall_mem_cons.mpr ⟨hall, halls⟩, ?_⟩
      · rw [List.flatMap_cons, List.flatMap_cons, hout, houts]
      · rw [List.map_cons, List.map_cons, hread, hreads]

theorem lines_log {texts : List (List UInt8)}
    (h : ∀ t ∈ texts, AllLines (fun l => ¬ endLine <+: l) t) :
    lines (texts.flatMap (· ++ (endLine ++ [10]))) =
      texts.flatMap fun t => lines t ++ [endLine] := by
  have hnl : (10 : UInt8) ∉ endLine := by decide
  rw [lines_flatMap_of_whole fun t ht => (h t ht).whole.append (whole_append_newline endLine)]
  exact List.flatMap_congr fun t ht => by rw [lines_append (h t ht).whole, lines_line hnl]

/-- The log of a run is read back, also when it is cut. -/
theorem readLog_of_prints {host : Host} {buf : Mem} {es : List Event} {p : Printed}
    (hprints : Prints host buf es p) (hfixed : ∀ msg ∈ received es, Message.HasFixed msg)
    (hplain : ∀ c ∈ planned buf es, PlainNames c.1 c.2) :
    readLog p.out = (received es).map Message.fields ∧
      ∀ part, part <+: p.out → readLog part <+: (received es).map Message.fields := by
  obtain ⟨ps, hps, rfl⟩ := prints_iff.mp hprints
  obtain ⟨texts, hout, hall, hread⟩ := exists_texts hps hplain
  have hlog : (Printed.join ps ++ ⟨[], listenErr es⟩).out =
      texts.flatMap (· ++ (endLine ++ [10])) := by
    rw [← hout, Printed.out_append, List.append_nil]
    rfl
  have hfields : (planned buf es).map (fun c => fieldsAt c.1 c.2) =
      (received es).map Message.fields :=
    map_eq_map_of_forall₂ (planned_messages es buf) fun _ msg hmsg hholds =>
      fieldsAt_eq hholds (hfixed msg hmsg)
  have hentries : entries (· == endLine) (lines (texts.flatMap (· ++ (endLine ++ [10])))) =
      texts.map lines := by
    rw [lines_log hall]
    refine entries_flatMap (fun t ht l hl => beq_eq_false_iff_ne.mpr ?_) ?_
    swap
    · exact fun t _ => beq_self_eq_true _
    rintro rfl
    exact (hall t ht).all endLine hl List.prefix_rfl
  have hwhole : readLog (texts.flatMap (· ++ (endLine ++ [10]))) =
      (received es).map Message.fields := by
    rw [readLog, hentries, List.map_map, ← hfields, ← hread]
    rfl
  rw [hlog]
  refine ⟨hwhole, fun part hpart => ?_⟩
  rw [← hwhole]
  refine (entries_isPrefix hpart fun l hl hclose => ?_).map readEntry
  rw [lines_log hall] at hl
  obtain ⟨t, ht, hlt⟩ := List.mem_flatMap.mp hl
  rcases List.mem_append.mp hlt with hlt | hlt
  · exact absurd hclose ((hall t ht).all l hlt)
  · exact List.mem_singleton.mp hlt

/-- **The log**: from what a monitor has printed to `stdout` the numbers of the messages received
are read back, in order; from the beginning of it, wherever it is cut, those of the first
messages.  So any two runs with the same log have received messages that are alike. -/
theorem log_reads_back {host : Host} {buf : Mem} {es : List Event} {p : Printed}
    (hprints : Prints host buf es p) (hfixed : ∀ msg ∈ received es, Message.HasFixed msg)
    (hplain : ∀ c ∈ planned buf es, PlainNames c.1 c.2) :
    readLog p.out = (received es).map Message.fields ∧
      (∀ part, part <+: p.out → readLog part <+: (received es).map Message.fields) ∧
      ∀ host' buf' es' p', Prints host' buf' es' p' →
        (∀ msg ∈ received es', Message.HasFixed msg) →
        (∀ c ∈ planned buf' es', PlainNames c.1 c.2) → p'.out = p.out →
          List.Forall₂ Message.Alike (received es) (received es') := by
  obtain ⟨hread, hcut⟩ := readLog_of_prints hprints hfixed hplain
  refine ⟨hread, hcut, fun host' buf' es' p' hprints' hfixed' hplain' hout => ?_⟩
  have hread' := (readLog_of_prints hprints' hfixed' hplain').1
  rw [hout, hread] at hread'
  exact forall₂_of_map_eq hread' fun msg hmsg msg' hmsg' heq =>
    Message.alike_of_fields_eq (hfixed msg hmsg) (hfixed' msg' hmsg') heq

/-- A neighbour that is reachable, with its address. -/
def neighMsg : Message :=
  ⟨[36, 0, 0, 0, 28, 0, 0, 0, 0, 0, 0, 0, 0, 0, 0, 0, 2, 0, 0, 0, 2, 0, 0, 0, 2, 0, 0, 1,
    8, 0, 1, 0, 192, 168, 0, 1], [], by decide, by decide, by decide⟩

def neighEvent : Event := .datagram ⟨[neighMsg], by decide, by decide⟩

/-- A host without interfaces. -/
def someHost : Host := ⟨46, fun _ => none, 0⟩

theorem plainNames_neigh : ∀ c ∈ planned (fun _ => 0) [neighEvent], PlainNames c.1 c.2 := by
  intro c hc
  rw [List.mem_singleton.mp (show c ∈ [(write (fun _ => 0) 0 (encode [neighMsg]), 0)] from hc)]
  intro kind x hkind hx rta hrta
  cases Option.some.inj (show some MsgKind.neigh = some kind from hkind)
  have hrun : run (attrLoop rtaToStr MsgKind.neigh.strlen
      (write (fun _ => 0) 0 (encode [neighMsg]))) 2
      (MsgKind.neigh.start (write (fun _ => 0) 0 (encode [neighMsg])) 0) = .inr ([28], none) := by
    decide +kernel
  rw [hx.unique ⟨2, hrun⟩, List.mem_singleton] at hrta
  subst hrta
  exact ⟨fun h => absurd h (by decide), fun h => absurd h (by decide)⟩

/-- It is printed. -/
theorem exists_prints_neigh : ∃ p, Prints someHost (fun _ => 0) [neighEvent] p := by
  have hok :
      (netlinkMsgPrint someHost (write (fun _ => 0) 0 (encode [neighMsg])) 0).isOk = true := by
    decide +kernel
  cases hp : netlinkMsgPrint someHost (write (fun _ => 0) 0 (encode [neighMsg])) 0 with
  | error halt => rw [hp] at hok; cases hok
  | ok p => exact ⟨_, prints_iff.mpr ⟨[p], .cons hp .nil, rfl⟩⟩

theorem hasFixed_neigh : ∀ msg ∈ received [neighEvent], Message.HasFixed msg := by
  intro msg hmsg kind hkind
  rw [List.mem_singleton.mp hmsg] at hkind ⊢
  cases Option.some.inj (show some MsgKind.neigh = some kind from hkind)
  decide

theorem log_reads_back_neigh : ∃ p, Prints someHost (fun _ => 0) [neighEvent] p ∧
    readLog p.out = [[36, 28, 0, 0, 0, 0, 2, 0, 0, 2, 2, 0, 1]] := by
  obtain ⟨p, hp⟩ := exists_prints_neigh
  refine ⟨p, hp, (log_reads_back hp hasFixed_neigh plainNames_neigh).1.trans ?_⟩
  decide

end Hspp
