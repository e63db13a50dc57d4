import AosKernel.Aml.DataObject

namespace AosKernel.Aml

open Verif Exec

-- What a data object is: a number or a text.
inductive ObjectValue
  | number (v : BitVec 64)
  | text (chars : List UInt8)
  deriving DecidableEq

def DataObject.value : DataObject → ObjectValue
  | zero => .number 0
  | one => .number 1
  | ones => .number (BitVec.allOnes 64)
  | byte v => .number (v.setWidth 64)
  | word v => .number (v.setWidth 64)
  | dword v => .number (v.setWidth 64)
  | qword v => .number v
  | string chars _ => .text chars

-- What a node says, with the characters where it points.
def AmlNode.meaning (data : List UInt8) (node : AmlNode) : Option ObjectValue :=
  match node.type, node.value with
  | .integer, .integer v _ => some (.number v)
  | .string, .string ptr length => some (.text ((data.drop ptr).take length))
  | _, _ => none

-- A length of a package in the form with `bytesFollow` bytes behind the lead byte.
def pkgLength : Nat → Nat → List UInt8
  | 0, n => [UInt8.ofNat n]
  | follow + 1, n => UInt8.ofNat (64 * (follow + 1) + n % 16) :: bytesOf (follow + 1) (n / 16)

-- The lengths that the form has room for.
def PkgFits (bytesFollow n : Nat) : Prop :=
  bytesFollow = 0 ∧ n < 2 ^ 6 ∨ 1 ≤ bytesFollow ∧ bytesFollow ≤ 3 ∧ n < 2 ^ (4 + 8 * bytesFollow)

section DataObjects

variable {data : List UInt8} {gives : Nat → Option (Nat → AmlNode)} {s t : AmlState}
  {n : NodePtr} {e : AmlStop} {op : UInt8} {o : DataObject}

theorem amlParseDataObject_run (hop : data[s.ptr]? = some op) :
    (amlParseDataObject data gives).run s = (readNode gives (dataReader data op)).run s := by
  unfold amlParseDataObject
  rw [peek_run hop]
  unfold dataReader
  split_ifs <;> rfl

-- Where a byte stands the parser makes a node of the object whose encoding starts there.
theorem amlParseDataObject_returns (hop : data[s.ptr]? = some op) :
    Returns (amlParseDataObject data gives) s n t ↔ ∃ (o : DataObject) (h : AmlHeap),
      o.encode <+: data.drop s.ptr ∧ getNewNode gives s.heap = (some n, h) ∧
        t = ⟨s.ptr + o.encode.length, h.modify n fun node => node.fill (o.held s.ptr)⟩ := by
  unfold Returns
  rw [amlParseDataObject_run hop]
  refine readNode_returns.trans ?_
  constructor
  · rintro ⟨f, q, h, hread, hnew, rfl⟩
    obtain ⟨_, ⟨o, rfl, rfl⟩, hstarts, rfl⟩ := (dataReader_scans hop).returns_iff.mp hread
    exact ⟨o, h, hstarts, hnew, rfl⟩
  · rintro ⟨o, h, hstarts, hnew, rfl⟩
    exact ⟨_, _, h, (dataReader_scans hop).complete _ _ ⟨o, rfl, rfl⟩ hstarts, hnew, rfl⟩

-- Otherwise it reports an error.
theorem amlParseDataObject_stops (hop : data[s.ptr]? = some op)
    (hstop : Stops (amlParseDataObject data gives) s e) : e = .refused := by
  unfold Stops at hstop
  rw [amlParseDataObject_run hop] at hstop
  rcases readNode_stops.mp hstop with hread | ⟨_, _, he⟩
  · exact (dataReader_scans hop).stops_eq hread
  · exact he

theorem meaning_held (hstarts : o.encode <+: data.drop s.ptr) (node : AmlNode) :
    (node.fill (o.held s.ptr)).meaning data = some o.value := by
  cases o with
  | string chars hascii =>
      have hchars : (data.drop (s.ptr + 1)).take chars.length = chars := by
        obtain ⟨rest, hrest⟩ := hstarts
        rw [← List.drop_drop, ← hrest]
        simp [DataObject.encode, DataObject.payload]
      simp [AmlNode.meaning, AmlNode.fill, DataObject.held, DataObject.value, hchars]
  | _ => rfl

-- Encodings are told apart by their beginnings.
theorem encode_prefix_free {o o' : DataObject} (h : o.encode <+: o'.encode) :
    o.encode = o'.encode := by
  have hscans : Scans o'.encode AmlStop.refused (dataReader o'.encode o'.op) Encodes 0 :=
    dataReader_scans rfl
  exact hscans.code_unique ⟨o, rfl, rfl⟩ h ⟨o', rfl, rfl⟩ (List.prefix_refl _)

end DataObjects

-- What stands for a data object is read as the object where there is a node for it, and a
-- part of it is refused.
structure ReadsObjects (data : List UInt8) (gives : Nat → Option (Nat → AmlNode))
    (s : AmlState) : Prop where
  decodes : ∀ o : DataObject, o.encode <+: data.drop s.ptr → ∀ n h,
    getNewNode gives s.heap = (some n, h) → ∃ t, Returns (amlParseDataObject data gives) s n t ∧
      (t.heap.node n).meaning data = some o.value ∧ t.ptr = s.ptr + o.encode.length
  starves : ∀ o : DataObject, o.encode <+: data.drop s.ptr → (getNewNode gives s.heap).1 = none →
    Stops (amlParseDataObject data gives) s .refused
  rejects : ∀ o : DataObject, data.drop s.ptr ≠ [] → data.drop s.ptr <+: o.encode →
    data.drop s.ptr ≠ o.encode → Stops (amlParseDataObject data gives) s .refused

-- The forms of a length are read as the length. A form of more bytes is accepted, where all of
-- them are there, if and only if bits 4 and 5 of its lead byte are zero.
structure ReadsPkglen (data : List UInt8) (p : Nat) : Prop where
  decodes : ∀ bytesFollow n, PkgFits bytesFollow n → pkgLength bytesFollow n <+: data.drop p →
    Returns (amlParsePkglen data) p (BitVec.ofNat 32 n) (p + 1 + bytesFollow)
  accepts_iff : ∀ lead, data[p]? = some lead → 1 ≤ lead.toNat / 64 →
    p + 1 + lead.toNat / 64 ≤ data.length →
      ((∃ n q, Returns (amlParsePkglen data) p n q) ↔ lead.toNat / 16 % 4 = 0)
  consumes : ∀ n q, Returns (amlParsePkglen data) p n q →
    ∃ lead, data[p]? = some lead ∧ q = p + 1 + lead.toNat / 64
  refuses : ∀ e, Stops (amlParsePkglen data) p e → e = .refused

section Lengths

variable {data : List UInt8} {p : Nat} {lead : UInt8}

-- The bits of a lead byte.
theorem lead_follow (lead : UInt8) : (lead >>> 6).toNat = lead.toNat / 64 := by
  rw [UInt8.toNat_shiftRight, Nat.shiftRight_eq_div_pow]
  rfl

theorem lead_reserved (lead : UInt8) : ((lead >>> 4) &&& 0b11).toNat = lead.toNat / 16 % 4 := by
  rw [UInt8.toNat_and, UInt8.toNat_shiftRight, Nat.shiftRight_eq_div_pow]
  exact Nat.and_two_pow_sub_one_eq_mod _ 2

theorem lead_low (lead : UInt8) : (lead &&& 0b00001111).toNat = lead.toNat % 16 := by
  rw [UInt8.toNat_and]
  exact Nat.and_two_pow_sub_one_eq_mod _ 4

theorem lead_short (lead : UInt8) : (lead &&& 0b00111111).toNat = lead.toNat % 64 := by
  rw [UInt8.toNat_and]
  exact Nat.and_two_pow_sub_one_eq_mod _ 6

-- What a lead byte and the bytes behind it stand for.
def PkgCode (lead : UInt8) (back : List UInt8) (n : BitVec 32) : Prop :=
  back.length = lead.toNat / 64 ∧
    (lead.toNat / 64 = 0 ∧ n.toNat = lead.toNat % 64 ∨
      lead.toNat / 64 ≠ 0 ∧ lead.toNat / 16 % 4 = 0 ∧
        n.toNat = lead.toNat % 16 + leNat back * 2 ^ 4)

theorem amlParsePkglen_scans (data : List UInt8) (p : Nat) :
    Scans data AmlStop.refused (amlParsePkglen data) (fun _ code n => ∃ lead back, code = lead :: back ∧ PkgCode lead back n) p := by
  have hwide (b : UInt8) : (b.toBitVec.setWidth 32).toNat = b.toNat := by
    have hlt : b.toNat < 256 := b.toNat_lt
    rw [BitVec.toNat_setWidth, UInt8.toNat_toBitVec, Nat.mod_eq_of_lt (by omega)]
  refine amlNext_bind (H := fun lead _ back n => PkgCode lead back n) fun lead => ?_
  have hlead : lead.toNat < 256 := lead.toNat_lt
  have hzero : lead >>> 6 = 0 ↔ lead.toNat / 64 = 0 := by
    rw [← UInt8.toNat_inj, lead_follow]
    rfl
  by_cases hshort : lead >>> 6 = 0
  · rw [if_pos hshort]
    refine (Scans.pure _).congr fun back n => ?_
    rw [hzero] at hshort
    rw [PkgCode, hshort, List.length_eq_zero_iff, ← lead_short, ← hwide, ← BitVec.toNat_inj]
    simp
  · have hmany : ¬ lead >>> 6 > 3 := by
      rw [gt_iff_lt, UInt8.lt_iff_toNat_lt, lead_follow]
      have hthree : (3 : UInt8).toNat = 3 := rfl
      omega
    rw [if_neg hshort, if_neg hmany]
    rw [hzero] at hshort
    have hbits : ¬ (lead >>> 4) &&& 0b11 ≠ 0 ↔ lead.toNat / 16 % 4 = 0 := by
      rw [not_not, ← UInt8.toNat_inj, lead_reserved]
      rfl
    have hlow := hwide (lead &&& 0b00001111)
    rw [lead_low] at hlow
    refine (Scans.checked fun _ => orBytes_scans (by rw [hlow]; omega)
      (by rw [lead_follow]; omega)).congr fun back n => ?_
    rw [hbits, hlow, lead_follow, PkgCode]
    constructor
    · rintro ⟨hreserved, hlength, hn⟩
      exact ⟨hlength, .inr ⟨hshort, hreserved, hn⟩⟩
    · rintro ⟨hlength, h | ⟨_, hreserved, hn⟩⟩
      · exact absurd h.1 hshort
      · exact ⟨hreserved, hlength, hn⟩

-- A form stands for the length it was made of.
theorem pkgLength_code {bytesFollow n : Nat} (h : PkgFits bytesFollow n) :
    ∃ lead back, pkgLength bytesFollow n = lead :: back ∧ lead.toNat / 64 = bytesFollow ∧
      PkgCode lead back (BitVec.ofNat 32 n) := by
  rcases h with ⟨rfl, hn⟩ | ⟨hone, hthree, hn⟩
  · have hlead : (UInt8.ofNat n).toNat = n := by
      rw [UInt8.toNat_ofNat', Nat.mod_eq_of_lt (by omega)]
    refine ⟨UInt8.ofNat n, [], rfl, by rw [hlead]; omega, by rw [hlead, List.length_nil]; omega,
      .inl ⟨by rw [hlead]; omega, ?_⟩⟩
    rw [hlead, BitVec.toNat_ofNat]
    omega
  · obtain ⟨follow, rfl⟩ := Nat.exists_eq_add_of_le' hone
    have hlead : (UInt8.ofNat (64 * (follow + 1) + n % 16)).toNat = 64 * (follow + 1) + n % 16 := by
      rw [UInt8.toNat_ofNat', Nat.mod_eq_of_lt (by omega)]
    have hwide : n < 2 ^ 32 := Nat.lt_of_lt_of_le hn (Nat.pow_le_pow_right (by decide) (by omega))
    have hrest : n / 16 < 256 ^ (follow + 1) := by
      rw [Nat.div_lt_iff_lt_mul (by decide)]
      calc n < 2 ^ (4 + 8 * (follow + 1)) := hn
        _ = 256 ^ (follow + 1) * 16 := by rw [Nat.pow_add, Nat.pow_mul, Nat.mul_comm]
    refine ⟨_, _, rfl, by rw [hlead]; omega, ?_, .inr ⟨?_, ?_, ?_⟩⟩
    · rw [hlead, length_bytesOf]
      omega
    · rw [hlead]
      omega
    · rw [hlead]
      omega
    · rw [hlead, leNat_bytesOf, Nat.mod_eq_of_lt hrest, BitVec.toNat_ofNat, Nat.mod_eq_of_lt hwide]
      omega

-- Whatever its bytes are, a form that is complete stands for some length.
theorem pkgCode_exists {back : List UInt8} (hlength : back.length = lead.toNat / 64)
    (hmulti : 1 ≤ lead.toNat / 64) (hreserved : lead.toNat / 16 % 4 = 0) :
    ∃ n, PkgCode lead back n := by
  have hlead : lead.toNat < 256 := lead.toNat_lt
  have hback := leNat_lt back
  have hthree : 256 ^ back.length ≤ 256 ^ 3 := Nat.pow_le_pow_right (by decide) (by omega)
  refine ⟨BitVec.ofNat 32 (lead.toNat % 16 + leNat back * 2 ^ 4), hlength,
    .inr ⟨by omega, hreserved, ?_⟩⟩
  rw [BitVec.toNat_ofNat, Nat.mod_eq_of_lt (by omega)]

end Lengths

-- Constants and lengths are decoded exactly.
theorem aml_decodes (data : List UInt8) (gives : Nat → Option (Nat → AmlNode)) (s : AmlState) :
    ReadsObjects data gives s ∧ ReadsPkglen data s.ptr := by
  have hfirst (o : DataObject) (hstarts : o.encode <+: data.drop s.ptr) :
      data[s.ptr]? = some o.op :=
    prefix_singleton_iff.mp ((List.prefix_append [o.op] o.payload).trans hstarts)
  refine ⟨⟨fun o hstarts n h hnew => ?_, fun o hstarts hnone => ?_,
    fun o hne hpart hstrict => ?_⟩, ?_⟩
  · have hop := hfirst o hstarts
    refine ⟨_, (amlParseDataObject_returns hop).mpr ⟨o, h, hstarts, hnew, rfl⟩, ?_, rfl⟩
    rw [AmlHeap.node_modify_same]
    exact meaning_held hstarts _
  · have hop := hfirst o hstarts
    have hread := (dataReader_scans hop).complete _ _ ⟨o, rfl, rfl⟩ hstarts
    unfold Stops
    rw [amlParseDataObject_run hop]
    exact readNode_stops.mpr (.inr ⟨⟨_, _, hread⟩, hnone, rfl⟩)
  · obtain ⟨op, rest, hrest⟩ := List.exists_cons_of_ne_nil hne
    have hop : data[s.ptr]? = some op := by
      rw [← List.head?_drop, hrest]
      rfl
    have hnone (o' : DataObject) : ¬ o'.encode <+: data.drop s.ptr := fun hstarts => by
      have hsame := encode_prefix_free (hstarts.trans hpart)
      rw [hsame] at hstarts
      exact hstrict (hpart.eq_of_length (Nat.le_antisymm hpart.length_le hstarts.length_le))
    have hread := (dataReader_scans hop).refuses fun code f hcode hstarts => by
      obtain ⟨o', rfl, _⟩ := hcode
      exact hnone o' hstarts
    unfold Stops
    rw [amlParseDataObject_run hop]
    exact readNode_stops.mpr (.inl hread)
  · have hscans := amlParsePkglen_scans data s.ptr
    refine ⟨fun bytesFollow n hfits hstarts => ?_, fun lead hlead hmulti hroom => ?_,
      fun n q hret => ?_, fun e hstop => hscans.stops_eq hstop⟩
    · obtain ⟨lead, back, hcode, hfollow, hpkg⟩ := pkgLength_code hfits
      have hret := hscans.complete _ _ ⟨lead, back, hcode, hpkg⟩ hstarts
      rwa [hcode, List.length_cons, hpkg.1, hfollow, Nat.add_comm bytesFollow,
        ← Nat.add_assoc] at hret
    · have hdrop : data.drop s.ptr = lead :: data.drop (s.ptr + 1) := by
        obtain ⟨hlt, rfl⟩ := List.getElem?_eq_some_iff.mp hlead
        exact List.drop_eq_getElem_cons hlt
      constructor
      · rintro ⟨n, q, hret⟩
        obtain ⟨_, ⟨lead', back, rfl, _, hpkg⟩, hstarts, _⟩ := hscans.returns_iff.mp hret
        rw [hdrop, List.cons_prefix_cons] at hstarts
        obtain ⟨rfl, _⟩ := hstarts
        rcases hpkg with ⟨hshort, _⟩ | ⟨_, hreserved, _⟩
        · omega
        · exact hreserved
      · intro hreserved
        have hlength : ((data.drop (s.ptr + 1)).take (lead.toNat / 64)).length =
            lead.toNat / 64 := by
          rw [List.length_take, List.length_drop]
          omega
        obtain ⟨n, hpkg⟩ := pkgCode_exists hlength hmulti hreserved
        refine ⟨n, _, hscans.complete _ _ ⟨lead, _, rfl, hpkg⟩ ?_⟩
        rw [hdrop, List.cons_prefix_cons]
        exact ⟨rfl, List.take_prefix _ _⟩
    · obtain ⟨_, ⟨lead, back, rfl, hpkg⟩, hstarts, rfl⟩ := hscans.returns_iff.mp hret
      refine ⟨lead, prefix_singleton_iff.mp ((List.prefix_append [lead] back).trans hstarts), ?_⟩
      rw [List.length_cons, hpkg.1]
      omega

end AosKernel.Aml
