import Hspp.LinkInfo

/-! # The decoder on well-formed attributes

A well-formed `IFLA_LINKINFO` is a stream of nested attributes (`Attr`), the data of a VLAN
a stream inside one of them.  Along such a stream the loop takes one attribute a round and
keeps the last value of each type (`vlanLoop_encode`); the strict bound in `rtattr_next`
skips at most a last attribute without payload, which has no value.

* The text for a VLAN shows the last values (`rtaToStrIflaLinkinfo_vlan`).
* A text is returned whenever the stream starts with its kind and a VLAN's data is there
  and not empty (`rtaToStrIflaLinkinfo_returns`); a stream that starts with another
  attribute fails the assertion. -/

namespace Hspp

open CInt Loop Memory Records Text

/-! ### Streams of VLAN attributes -/

/-- The payload of a VLAN attribute has the size of its type, if the type has one. -/
def VlanSized (a : Attr) : Prop := vlanWidth a.type = 0 ∨ a.payload.length = vlanWidth a.type

/-- The value of the last attribute of type `t`, or `d` when there is none. -/
def lastValue (d t : ℕ) (attrs : List Attr) : ℕ :=
  ((attrs.filter fun a => a.type = t).getLast?.map fun a => leNat a.payload).getD d

/-- Store the value of one attribute. -/
def assignAttr (v : InterfaceInfoVlan) (a : Attr) : InterfaceInfoVlan :=
  v.assign a.type (leNat a.payload)

theorem lastValue_cons (d t : ℕ) (a : Attr) (as : List Attr) :
    lastValue d t (a :: as) = lastValue (if a.type = t then leNat a.payload else d) t as := by
  unfold lastValue
  by_cases h : a.type = t
  · rw [List.filter_cons_of_pos (by simpa using h), List.getLast?_cons, if_pos h]
    cases (as.filter fun a => a.type = t).getLast? <;> rfl
  · rw [List.filter_cons_of_neg (by simpa using h), if_neg h]

/-- Storing the values in turn leaves the last one of each type. -/
theorem foldl_assignAttr : ∀ (attrs : List Attr) (v : InterfaceInfoVlan),
    attrs.foldl assignAttr v =
      ⟨lastValue v.proto IFLA_VLAN_PROTOCOL attrs, lastValue v.id IFLA_VLAN_ID attrs,
        lastValue v.flags IFLA_VLAN_FLAGS attrs⟩
  | [], _ => rfl
  | a :: as, v => by
      have hdistinct : IFLA_VLAN_ID ≠ IFLA_VLAN_FLAGS ∧ IFLA_VLAN_ID ≠ IFLA_VLAN_PROTOCOL ∧
          IFLA_VLAN_FLAGS ≠ IFLA_VLAN_PROTOCOL := by decide
      rw [List.foldl_cons, foldl_assignAttr as, lastValue_cons, lastValue_cons, lastValue_cons]
      simp only [assignAttr, InterfaceInfoVlan.assign]
      by_cases h1 : a.type = IFLA_VLAN_ID
      · simp only [h1, if_true, hdistinct.1, hdistinct.2.1, if_false]
      by_cases h2 : a.type = IFLA_VLAN_FLAGS
      · simp only [h2, if_true, hdistinct.1.symm, hdistinct.2.2, if_false]
      by_cases h5 : a.type = IFLA_VLAN_PROTOCOL
      · simp only [h5, if_true, hdistinct.2.1.symm, hdistinct.2.2.symm, if_false]
      · simp only [h1, h2, h5, if_false]

/-- An attribute of the right size is accepted, and its value is the one stored. -/
theorem accepts_of_sized {m : Mem} {o : ℕ} {a : Attr} (h : Holds m o a.bytes) (ha : VlanSized a) :
    Accepts (rtattrLen m o) (rtattrType m o) := by
  have hlen := a.length_payload
  have hhdr := a.hdr_le
  rw [Attr.rtattrLen_eq h, Attr.rtattrType_eq h]
  unfold Accepts VlanSized at *
  omega

theorem assign_of_sized {m : Mem} {o : ℕ} {a : Attr} (h : Holds m o a.bytes) (ha : VlanSized a)
    (v : InterfaceInfoVlan) : v.assign (rtattrType m o) (vlanValue m o) = assignAttr v a := by
  rcases ha with ha | ha
  · rw [Attr.rtattrType_eq h, assignAttr, v.assign_of_width ha, v.assign_of_width ha]
  · rw [vlanValue, Attr.rtattrType_eq h, ← ha, Attr.holds_payload h, assignAttr]

/-- An attribute without payload stores nothing. -/
theorem assignAttr_of_empty {a : Attr} (h : a.payload.length = 0) (ha : VlanSized a)
    (v : InterfaceInfoVlan) : assignAttr v a = v :=
  v.assign_of_width (ha.elim id fun h' => h' ▸ h) _

theorem eq_nil_of_length_encode {attrs : List Attr} (h : (encode attrs).length = 0) :
    attrs = [] := by
  cases attrs with
  | nil => rfl
  | cons a as =>
      have := a.hdr_le_roundUp (by norm_num)
      rw [length_encode_cons] at h
      omega

/-- Along a stream of VLAN attributes the loop stores their values in turn. -/
theorem vlanLoop_encode {m : Mem} : ∀ (attrs : List Attr) (o : ℕ) (v : InterfaceInfoVlan),
    attrs ≠ [] → (∀ a ∈ attrs, VlanSized a) → Holds m o (encode attrs) →
    (encode attrs).length ≤ 65531 →
    Exits (vlanLoop m) ⟨o, (encode attrs).length, v⟩ (.ok (attrs.foldl assignAttr v))
  | [], _, _, hne, _, _, _ => absurd rfl hne
  | a :: as, o, v, _, hsized, hmem, hlen => by
      rw [holds_encode_cons] at hmem
      have ha := Record.holds_bytes hmem.1
      have hacc := accepts_of_sized ha (hsized a (.head _))
      have hassign := assign_of_sized ha (hsized a (.head _)) v
      have hpos := a.hdr_le
      rw [length_encode_cons] at hlen ⊢
      rw [List.foldl_cons]
      by_cases hc : Continues (rtattrLen m o) ((roundUp 4 a.bytes.length + (encode as).length : ℕ))
      · rw [vlanLoop_next (by omega) (by omega) hacc hc, hassign, Attr.rtattrLen_eq ha]
        have hne : as ≠ [] := by
          rintro rfl
          have := hc.2
          rw [Attr.rtattrLen_eq ha, encode_nil, List.length_nil] at this
          omega
        have := vlanLoop_encode as (o + roundUp 4 a.bytes.length) (assignAttr v a) hne
          (fun b hb => hsized b (.tail _ hb)) hmem.2 (by omega)
        rwa [show ((roundUp 4 a.bytes.length + (encode as).length : ℕ) : ℤ) -
          roundUp 4 a.bytes.length = (encode as).length by push_cast; omega]
      · rw [vlanLoop_last (by omega) (by omega) hacc hc, hassign]
        have hshort : (encode as).length ≤ 4 := by
          by_contra hgt
          refine hc ⟨by rw [Attr.rtattrLen_eq ha]; omega, ?_⟩
          rw [Attr.rtattrLen_eq ha]
          push_cast
          omega
        -- what the bound skips is at most one attribute without payload
        cases as with
        | nil => rfl
        | cons b bs =>
            rw [length_encode_cons] at hshort
            have hb := le_roundUp (a := 4) (by norm_num) b.bytes.length
            have hb4 := b.hdr_le
            have hbs : bs = [] := eq_nil_of_length_encode (by omega)
            rw [hbs, List.foldl_cons, List.foldl_nil,
              assignAttr_of_empty (by rw [b.length_payload]; omega) (hsized b (.tail _ (.head _)))]

/-! ### The kind and the data -/

/-- The nested attributes of a well-formed `IFLA_LINKINFO` for a VLAN: its kind and its data,
which is a stream of VLAN attributes, and whatever follows them. -/
structure VlanLinkinfo where
  root : Attr
  kind : Attr
  data : Attr
  attrs : List Attr
  rest : List UInt8
  root_type : root.type = IFLA_LINKINFO
  root_payload : root.payload = encode [kind, data] ++ rest
  kind_type : kind.type = IFLA_INFO_KIND
  kind_payload : kind.payload = ascii "vlan" ++ [0]
  data_type : data.type = IFLA_INFO_DATA
  data_payload : data.payload = encode attrs
  attrs_ne_nil : attrs ≠ []
  attrs_sized : ∀ a ∈ attrs, VlanSized a

/-- The values that a list of VLAN attributes gives to the three fields. -/
def lastValues (attrs : List Attr) : InterfaceInfoVlan :=
  ⟨lastValue 0 IFLA_VLAN_PROTOCOL attrs, lastValue 0 IFLA_VLAN_ID attrs,
    lastValue 0 IFLA_VLAN_FLAGS attrs⟩

/-- The loop over the payload of a stored attribute ends with the last values. -/
theorem vlanLoop_data {m : Mem} {rta : ℕ} {data : Attr} {attrs : List Attr}
    (h : Holds m rta data.bytes) (hpayload : data.payload = encode attrs) (hne : attrs ≠ [])
    (hsized : ∀ a ∈ attrs, VlanSized a) :
    Exits (vlanLoop m) ⟨rta + 4, rtattrLen m rta - 4, ⟨0, 0, 0⟩⟩ (.ok (lastValues attrs)) := by
  have hlt := data.length_lt
  have hhdr := data.hdr_le
  have hlen := data.length_payload
  rw [hpayload] at hlen
  have hmem := Attr.holds_payload h
  rw [hpayload] at hmem
  have hloop := vlanLoop_encode attrs (rta + 4) ⟨0, 0, 0⟩ hne hsized hmem (by omega)
  rw [foldl_assignAttr] at hloop
  rwa [Attr.rtattrLen_eq h, show (data.bytes.length : ℤ) - 4 = (encode attrs).length by omega]

/-- The nested attributes of a stored attribute start right behind its header. -/
theorem holds_nested {m : Mem} {o : ℕ} {root a : Attr} {as : List Attr} {rest : List UInt8}
    (h : Holds m o root.bytes) (hpayload : root.payload = encode (a :: as) ++ rest) :
    Holds m (o + 4) a.bytes ∧ Holds m (o + 4 + roundUp 4 a.bytes.length) (encode as) := by
  have hmem := Attr.holds_payload h
  rw [hpayload, holds_append, holds_encode_cons] at hmem
  exact ⟨Record.holds_bytes hmem.1.1, hmem.1.2⟩

/-- **VLAN text**: the decoder shows the last identifier, protocol and flags. -/
theorem rtaToStrIflaLinkinfo_vlan (x : VlanLinkinfo) {m : Mem} {o : ℕ}
    (h : Holds m o x.root.bytes) (str : List UInt8) (len : ℕ) :
    rtaToStrIflaLinkinfo m o str len =
      .ok (snprintf str len (vlanText
        ⟨lastValue 0 IFLA_VLAN_PROTOCOL x.attrs, lastValue 0 IFLA_VLAN_ID x.attrs,
          lastValue 0 IFLA_VLAN_FLAGS x.attrs⟩)) := by
  obtain ⟨hkind, hrest⟩ := holds_nested h x.root_payload
  have hdata := Record.holds_bytes (holds_encode_cons.mp hrest).1
  have hlen : rtattrLen m (o + 4) = 9 := by
    have hname : x.kind.payload.length = 5 := by
      rw [x.kind_payload]
      rfl
    have hlen := x.kind.length_payload
    rw [Attr.rtattrLen_eq hkind]
    omega
  have hstr : cstr (bytesAt m (o + 8) 99) = ascii "vlan" := by
    have := Attr.holds_payload hkind
    rw [x.kind_payload] at this
    exact cstr_bytesAt this (by decide) (by decide)
  have htext : linkinfoText m o = .ok (vlanText (lastValues x.attrs)) := by
    rw [linkinfoText_eq_ok_iff]
    refine ⟨(Attr.rtattrType_eq h).trans x.root_type,
      (Attr.rtattrType_eq hkind).trans x.kind_type, by omega, ?_⟩
    rw [if_pos hstr, hlen]
    refine ⟨by decide, ?_⟩
    rw [← Attr.rtattrLen_eq hkind, hlen] at hdata
    intro rta
    rw [if_pos ((Attr.rtattrType_eq hdata).trans x.data_type)]
    exact ⟨_, vlanLoop_data hdata x.data_payload x.attrs_ne_nil x.attrs_sized, rfl⟩
  rw [rtaToStrIflaLinkinfo, htext]
  rfl

/-- The attribute of `test/analyze_rta_IFLA_LINKINFO.c`. -/
def arry : List UInt8 :=
  [0x30, 0x00, 0x12, 0x00, 0x09, 0x00, 0x01, 0x00,
   0x76, 0x6c, 0x61, 0x6e, 0x00, 0x00, 0x00, 0x00,
   0x20, 0x00, 0x02, 0x00, 0x06, 0x00, 0x05, 0x00,
   0x81, 0x00, 0x00, 0x00, 0x06, 0x00, 0x01, 0x00,
   0x0a, 0x00, 0x00, 0x00, 0x0c, 0x00, 0x02, 0x00,
   0x01, 0x00, 0x00, 0x00, 0xff, 0xff, 0xff, 0xff]

def arryLinkinfo : VlanLinkinfo where
  root := ⟨arry, [], by decide, by decide, by decide⟩
  kind := ⟨(arry.drop 4).take 9, [0, 0, 0], by decide, by decide, by decide⟩
  data := ⟨arry.drop 16, [], by decide, by decide, by decide⟩
  attrs :=
    [⟨(arry.drop 20).take 6, [0, 0], by decide, by decide, by decide⟩,
     ⟨(arry.drop 28).take 6, [0, 0], by decide, by decide, by decide⟩,
     ⟨arry.drop 36, [], by decide, by decide, by decide⟩]
  rest := []
  root_type := by decide
  root_payload := by decide
  kind_type := by decide
  kind_payload := by decide
  data_type := by decide
  data_payload := by decide
  attrs_ne_nil := List.cons_ne_nil _ _
  attrs_sized := by
    simp only [List.mem_cons, List.not_mem_nil, or_false]
    rintro a (rfl | rfl | rfl) <;> exact .inr rfl

theorem rtaToStrIflaLinkinfo_vlan_arry :
    rtaToStrIflaLinkinfo (write (fun _ => 0) 0 arry) 0 [] 1000 = .ok (snprintf [] 1000
      (ascii "IFLA_LINKINFO vlan(id:10, proto:0x0081, flags:0xffffffff00000001)")) :=
  (rtaToStrIflaLinkinfo_vlan arryLinkinfo (holds_write _ 0 arry) [] 1000).trans (by decide)

/-! ### Every well-formed stream of nested attributes -/

/-- A string with its NUL and any further NULs, at most 100 bytes in all. -/
def KindString (bs : List UInt8) : Prop :=
  bs.length ≤ 100 ∧ ∃ s n, bs = s ++ [0] ++ List.replicate n 0 ∧ (0 : UInt8) ∉ s

/-- A well-formed `IFLA_LINKINFO` with the nested attributes `nested`: every kind is a
string, and where there is a kind `"vlan"` all data are streams of VLAN attributes. -/
structure WellFormedLinkinfo (root : Attr) (nested : List Attr) : Prop where
  type : root.type = IFLA_LINKINFO
  payload : root.payload = encode nested
  kind : ∀ a ∈ nested, a.type = IFLA_INFO_KIND → KindString a.payload
  data : ∀ k ∈ nested, k.type = IFLA_INFO_KIND → cstr k.payload = ascii "vlan" →
    ∀ a ∈ nested, a.type = IFLA_INFO_DATA →
      ∃ attrs, a.payload = encode attrs ∧ ∀ b ∈ attrs, VlanSized b

/-- What the decoder relies on for a VLAN: the length of the kind is not a multiple of 4,
and an attribute follows it which, if it is the data, has a payload. -/
def VlanDataFollows (kind : Attr) (more : List Attr) : Prop :=
  kind.bytes.length % 4 ≠ 0 ∧
    ∃ a as, more = a :: as ∧ (a.type = IFLA_INFO_DATA → a.payload ≠ [])

/-- A stored kind is read up to its NUL. -/
theorem cstr_kind {m : Mem} {o : ℕ} {bs : List UInt8} (h : Holds m o bs) (hk : KindString bs) :
    cstr (bytesAt m o 99) = cstr bs := by
  obtain ⟨hle, s, n, rfl, h0⟩ := hk
  rw [List.length_append, List.length_append, List.length_singleton] at hle
  rw [cstr_bytesAt (holds_append.mp h).1 h0 (by omega), List.append_assoc,
    cstr_append_of_not_mem h0]
  exact (List.append_nil s).symm

/-- **Return**: on a well-formed stream that starts with its kind the decoder returns,
whatever surrounds the attribute in memory. -/
theorem rtaToStrIflaLinkinfo_returns {m : Mem} {o : ℕ} {root kind : Attr} {more : List Attr}
    (h : Holds m o root.bytes) (hwf : WellFormedLinkinfo root (kind :: more))
    (hkind : kind.type = IFLA_INFO_KIND)
    (hvlan : cstr kind.payload = ascii "vlan" → VlanDataFollows kind more) (str : List UInt8)
    (len : ℕ) : ∃ out, rtaToStrIflaLinkinfo m o str len = .ok out := by
  have hpayload : root.payload = encode (kind :: more) ++ [] := by
    rw [hwf.payload, List.append_nil]
  obtain ⟨hkmem, hmore⟩ := holds_nested h hpayload
  have hks := hwf.kind kind (.head _) hkind
  have hstr := cstr_kind (Attr.holds_payload hkmem) hks
  have hlen : 4 ≤ rtattrLen m (o + 4) ∧ rtattrLen m (o + 4) ≤ 104 := by
    have := hks.1
    have := kind.length_payload
    have := kind.hdr_le
    rw [Attr.rtattrLen_eq hkmem]
    omega
  suffices htext : ∃ text, linkinfoText m o = .ok text by
    obtain ⟨text, htext⟩ := htext
    exact ⟨snprintf str len text, by rw [rtaToStrIflaLinkinfo, htext]; rfl⟩
  simp only [linkinfoText_eq_ok_iff]
  have hhead := And.intro ((Attr.rtattrType_eq h).trans hwf.type)
    ((Attr.rtattrType_eq hkmem).trans hkind)
  by_cases hv : cstr (bytesAt m (o + 8) 99) = ascii "vlan"
  swap
  · exact ⟨_, hhead.1, hhead.2, hlen, by rw [if_neg hv]⟩
  obtain ⟨h4, a, as, rfl, hne⟩ := hvlan (hstr.symm.trans hv)
  have hamem := Record.holds_bytes (holds_encode_cons.mp hmore).1
  rw [← Attr.rtattrLen_eq hkmem] at hamem h4
  by_cases h2 : a.type = IFLA_INFO_DATA
  · obtain ⟨attrs, hattrs, hsized⟩ :=
      hwf.data kind (.head _) hkind (hstr.symm.trans hv) a (.tail _ (.head _)) h2
    have hnil : attrs ≠ [] := fun h => hne h2 (by rw [hattrs, h, encode_nil])
    refine ⟨vlanText (lastValues attrs), hhead.1, hhead.2, hlen, ?_⟩
    rw [if_pos hv]
    refine ⟨h4, ?_⟩
    rw [if_pos ((Attr.rtattrType_eq hamem).trans h2)]
    exact ⟨_, vlanLoop_data hamem hattrs hnil hsized, rfl⟩
  · refine ⟨unknownKindText (ascii "vlan"), hhead.1, hhead.2, hlen, ?_⟩
    rw [if_pos hv]
    refine ⟨h4, ?_⟩
    rw [if_neg (by rwa [Attr.rtattrType_eq hamem])]

theorem wellFormed_arry :
    WellFormedLinkinfo arryLinkinfo.root [arryLinkinfo.kind, arryLinkinfo.data] := by
  refine ⟨by decide, by decide, ?_, ?_⟩
  · simp only [List.mem_cons, List.not_mem_nil, or_false]
    rintro a (rfl | rfl) h1
    · exact ⟨by decide, ascii "vlan", 0, by decide, by decide⟩
    · exact absurd h1 (by decide)
  · simp only [List.mem_cons, List.not_mem_nil, or_false]
    rintro k - - - a (rfl | rfl) h2
    · exact absurd h2 (by decide)
    · exact ⟨_, arryLinkinfo.data_payload, arryLinkinfo.attrs_sized⟩

theorem rtaToStrIflaLinkinfo_returns_arry :
    ∃ out, rtaToStrIflaLinkinfo (write (fun _ => 0) 0 arry) 0 [] 1000 = .ok out :=
  rtaToStrIflaLinkinfo_returns (holds_write _ _ arryLinkinfo.root.bytes) wellFormed_arry
    (by decide) (fun _ => ⟨by decide, arryLinkinfo.data, [], rfl, by decide⟩) [] 1000

/-- An `IFLA_LINKINFO` that starts with `IFLA_INFO_SLAVE_KIND`. -/
def slaveLinkinfo : Attr :=
  ⟨[16, 0, 18, 0, 9, 0, 4, 0, 98, 111, 110, 100, 0, 0, 0, 0], [], by decide, by decide, by decide⟩

def slaveKind : Attr :=
  ⟨[9, 0, 4, 0, 98, 111, 110, 100, 0], [0, 0, 0], by decide, by decide, by decide⟩

theorem wellFormed_slaveLinkinfo : WellFormedLinkinfo slaveLinkinfo [slaveKind] := by
  refine ⟨by decide, by decide, ?_, ?_⟩
  · intro a ha h1
    rw [List.mem_singleton.mp ha] at h1
    exact absurd h1 (by decide)
  · intro a ha h1
    rw [List.mem_singleton.mp ha] at h1
    exact absurd h1 (by decide)

theorem rtaToStrIflaLinkinfo_slave :
    ¬ ∀ (m : Mem) (o : ℕ) (root : Attr) (nested : List Attr), Holds m o root.bytes →
      WellFormedLinkinfo root nested → ∀ (str : List UInt8) (len : ℕ),
        ∃ out, rtaToStrIflaLinkinfo m o str len = .ok out := by
  intro h
  obtain ⟨out, hout⟩ := h (write (fun _ => 0) 0 slaveLinkinfo.bytes) 0 slaveLinkinfo [slaveKind]
    (holds_write _ _ _) wellFormed_slaveLinkinfo [] 0
  rw [show rtaToStrIflaLinkinfo (write (fun _ => 0) 0 slaveLinkinfo.bytes) 0 [] 0 =
    .error .assertFailed by decide] at hout
  cases hout

end Hspp
