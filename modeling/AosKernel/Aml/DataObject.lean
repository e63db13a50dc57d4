import AosKernel.Aml.Nodes

namespace AosKernel.Aml

open Verif Exec

-- The characters of a string.
def Ascii (chars : List UInt8) : Prop := ∀ c ∈ chars, 0x01 ≤ c ∧ c ≤ 0x7F

-- The data objects of AML.
inductive DataObject
  | zero
  | one
  | ones
  | byte (v : BitVec 8)
  | word (v : BitVec 16)
  | dword (v : BitVec 32)
  | qword (v : BitVec 64)
  | string (chars : List UInt8) (ascii : Ascii chars)

namespace DataObject

def op : DataObject → UInt8
  | zero => 0x00
  | one => 0x01
  | ones => 0xFF
  | byte _ => 0x0A
  | word _ => 0x0B
  | dword _ => 0x0C
  | qword _ => 0x0E
  | string _ _ => 0x0D

def payload : DataObject → List UInt8
  | zero | one | ones => []
  | byte v => bytesOf 1 v.toNat
  | word v => bytesOf 2 v.toNat
  | dword v => bytesOf 4 v.toNat
  | qword v => bytesOf 8 v.toNat
  | string chars _ => chars ++ [0x00]

-- The encoding of a data object.
def encode (o : DataObject) : List UInt8 := o.op :: o.payload

-- What a node holds of the object whose encoding starts at `p`: the number and how many
-- bytes it takes, or where the characters are and how many.
def held (p : Nat) : DataObject → Filling
  | zero => ⟨.integer, some (.integer 0 1)⟩
  | one => ⟨.integer, some (.integer 1 1)⟩
  | ones => ⟨.integer, some (.integer (BitVec.allOnes 64) 1)⟩
  | byte v => ⟨.integer, some (.integer (v.setWidth 64) 1)⟩
  | word v => ⟨.integer, some (.integer (v.setWidth 64) 2)⟩
  | dword v => ⟨.integer, some (.integer (v.setWidth 64) 4)⟩
  | qword v => ⟨.integer, some (.integer v 8)⟩
  | string chars _ => ⟨.string, some (.string (p + 1) chars.length)⟩

theorem encode_ne_nil (o : DataObject) : o.encode ≠ [] := List.cons_ne_nil _ _

theorem isDataOp_op (o : DataObject) : IsDataOp o.op := by
  cases o <;> simp only [DataObject.op] <;> decide

end DataObject

-- What aml_parse_data_object reads after a peek at the byte.
def dataReader (data : List UInt8) (op : UInt8) : Exec AmlStop Nat Filling :=
  if op = AML_ZERO_OP then readConst data AML_ZERO_OP (pure ⟨.integer, some (.integer 0 1)⟩)
  else if op = AML_ONE_OP then readConst data AML_ONE_OP (pure ⟨.integer, some (.integer 1 1)⟩)
  else if op = AML_ONES_OP then
    readConst data AML_ONES_OP (pure ⟨.integer, some (.integer (BitVec.allOnes 64) 1)⟩)
  else if op = AML_BYTE_PREFIX then
    readConst data AML_BYTE_PREFIX (readInteger (amlParseByte data))
  else if op = AML_WORD_PREFIX then
    readConst data AML_WORD_PREFIX (readInteger (amlParseWord data))
  else if op = AML_DWORD_PREFIX then
    readConst data AML_DWORD_PREFIX (readInteger (amlParseDword data))
  else if op = AML_QWORD_PREFIX then
    readConst data AML_QWORD_PREFIX (readInteger (amlParseQword data))
  else if op = AML_STRING_PREFIX then readConst data AML_STRING_PREFIX (readString data)
  else throw .refused

section Readers

variable {data : List UInt8} {p : Nat} {c op : UInt8} {G : Nat → List UInt8 → Filling → Prop}

theorem expect_scans (data : List UInt8) (c : UInt8) (p : Nat) :
    Scans data AmlStop.refused (expect data c) (fun _ code _ => code = [c]) p := by
  refine (amlNext_bind fun d => Scans.checked (c := d ≠ c) fun _ => Scans.pure ()).congr ?_
  intro code u
  constructor
  · rintro ⟨d, _, rfl, hd, rfl, _⟩
    rw [not_not.mp hd]
  · rintro rfl
    exact ⟨c, [], rfl, not_not_intro rfl, rfl, rfl⟩

-- Behind its byte a constant is read as its value is.
theorem readConst_scans {value : Exec AmlStop Nat Filling}
    (h : Scans data AmlStop.refused value G (p + 1)) :
    Scans data AmlStop.refused (readConst data c value)
      (fun p code f => ∃ back, code = c :: back ∧ G (p + 1) back f) p := by
  refine ((expect_scans data c p).bind (H := fun _ => G) ?_).congr ?_
  · rintro _ _ rfl _
    exact h
  · intro code f
    constructor
    · rintro ⟨_, _, back, rfl, hback, rfl⟩
      exact ⟨back, rfl, hback⟩
    · rintro ⟨back, rfl, hback⟩
      exact ⟨[c], (), back, rfl, hback, rfl⟩

theorem readInteger_scans {w : Nat} {m : Exec AmlStop Nat (BitVec w)}
    (h : Scans data AmlStop.refused m (fun _ code v => code = bytesOf (w / 8) v.toNat) p) :
    Scans data AmlStop.refused (readInteger m) (fun _ code f => ∃ v : BitVec w,
      code = bytesOf (w / 8) v.toNat ∧
        f = ⟨.integer, some (.integer (v.setWidth 64) (w / 8))⟩) p := by
  refine (h.bind fun _ v _ _ => Scans.pure _).congr fun code f => ?_
  constructor
  · rintro ⟨front, v, _, rfl, ⟨rfl, rfl⟩, rfl⟩
    exact ⟨v, List.append_nil _, rfl⟩
  · rintro ⟨v, rfl, rfl⟩
    exact ⟨_, v, [], rfl, ⟨rfl, rfl⟩, (List.append_nil _).symm⟩

theorem amlParseByte_scans : Scans data AmlStop.refused (amlParseByte data)
    (fun _ code v => code = bytesOf 1 v.toNat) p := by
  refine (amlNext_bind fun c => Scans.pure c.toBitVec).congr fun code v => ?_
  constructor
  · rintro ⟨c, _, rfl, rfl, rfl⟩
    simp [bytesOf]
  · rintro rfl
    exact ⟨⟨v⟩, [], by simp [bytesOf], rfl, rfl⟩

end Readers

-- A string with its zero, or characters up to the end of the stream.
def StringScan (data : List UInt8) (p : Nat) (code : List UInt8) (terminated : Bool) : Prop :=
  (∃ chars, Ascii chars ∧ code = chars ++ [0x00]) ∧ terminated = true ∨
    Ascii code ∧ p + code.length = data.length ∧ terminated = false

section Strings

variable {data code back : List UInt8} {p : Nat} {c op : UInt8} {terminated : Bool}

theorem ascii_cons : Ascii (c :: code) ↔ (0x01 ≤ c ∧ c ≤ 0x7F) ∧ Ascii code :=
  List.forall_mem_cons

theorem stringScan_cons : StringScan data p (c :: back) terminated ↔
    (c = 0 ∧ back = [] ∧ terminated = true) ∨
      (0x01 ≤ c ∧ c ≤ 0x7F) ∧ StringScan data (p + 1) back terminated := by
  unfold StringScan
  constructor
  · rintro (⟨⟨chars, hascii, hcode⟩, rfl⟩ | ⟨hascii, hlength, rfl⟩)
    · cases chars with
      | nil =>
          cases hcode
          exact .inl ⟨rfl, rfl, rfl⟩
      | cons d chars =>
          cases hcode
          obtain ⟨hc, hascii⟩ := ascii_cons.mp hascii
          exact .inr ⟨hc, .inl ⟨⟨chars, hascii, rfl⟩, rfl⟩⟩
    · obtain ⟨hc, hascii⟩ := ascii_cons.mp hascii
      rw [List.length_cons] at hlength
      exact .inr ⟨hc, .inr ⟨hascii, by omega, rfl⟩⟩
  · rintro (⟨rfl, rfl, rfl⟩ | ⟨hc, ⟨⟨chars, hascii, rfl⟩, rfl⟩ | ⟨hascii, hlength, rfl⟩⟩)
    · exact .inl ⟨⟨[], fun d hd => absurd hd List.not_mem_nil, rfl⟩, rfl⟩
    · exact .inl ⟨⟨c :: chars, ascii_cons.mpr ⟨hc, hascii⟩, rfl⟩, rfl⟩
    · exact .inr ⟨ascii_cons.mpr ⟨hc, hascii⟩, by rw [List.length_cons]; omega, rfl⟩

theorem stringLoop_scans {left : Nat} (hleft : p + left = data.length) :
    Scans data AmlStop.refused (stringLoop data left) (StringScan data) p := by
  induction left generalizing p with
  | zero =>
      refine (Scans.pure false).congr_here fun code b hstarts => ?_
      rw [List.drop_eq_nil_of_le (by omega)] at hstarts
      obtain rfl := List.prefix_nil.mp hstarts
      simp [StringScan, Ascii, ← hleft]
  | succ left ih =>
      have hstep (c : UInt8) : Scans data AmlStop.refused
          (if c = 0x00 then pure true
            else if c < 0x01 ∨ c > 0x7F then throw .refused
            else stringLoop data left) (fun p back terminated =>
              (c = 0 ∧ back = [] ∧ terminated = true) ∨
                (0x01 ≤ c ∧ c ≤ 0x7F) ∧ StringScan data p back terminated) (p + 1) := by
        by_cases hc : c = 0
        · subst hc
          rw [if_pos rfl]
          exact (Scans.pure true).congr fun code b => by simp
        · rw [if_neg hc]
          refine (Scans.checked fun _ => ih (by omega)).congr fun code b => ?_
          rw [not_or, UInt8.not_lt, UInt8.not_lt]
          exact (or_iff_right fun h => hc h.1).symm
      refine (amlNext_bind hstep).congr_here fun code b hstarts => ?_
      constructor
      · rintro ⟨c, back, rfl, hscan⟩
        exact stringScan_cons.mpr hscan
      · intro hscan
        cases code with
        | nil =>
            rcases hscan with ⟨⟨chars, _, hcode⟩, _⟩ | ⟨_, hlength, _⟩
            · exact absurd hcode.symm (List.append_ne_nil_of_right_ne_nil _ (List.cons_ne_nil _ _))
            · rw [List.length_nil] at hlength
              omega
        | cons c back => exact ⟨c, back, rfl, stringScan_cons.mp hscan⟩

theorem readString_scans (hp : p ≤ data.length) : Scans data AmlStop.refused (readString data)
    (fun p code f => ∃ chars, Ascii chars ∧ code = chars ++ [0x00] ∧
      f = ⟨.string, some (.string p chars.length)⟩) p := by
  have hloop : Scans data AmlStop.refused (readString data) (Follows
      (fun p code start => code = [] ∧ start = p) fun start => Follows (StringScan data)
        fun terminated p code f => ¬ ¬ terminated ∧ Follows
          (fun p code ptr => code = [] ∧ ptr = p)
          (fun ptr _ code f => code = [] ∧ f = ⟨.string, some (.string start (ptr - start - 1))⟩)
            p code f) p := by
    refine Scans.place.bind ?_
    rintro _ _ ⟨rfl, rfl⟩ _
    refine (stringLoop_scans (by rw [List.length_nil]; omega)).bind fun code terminated _ _ => ?_
    exact Scans.checked fun _ => Scans.place.bind fun _ ptr _ _ => Scans.pure _
  refine hloop.congr fun code f => ?_
  constructor
  · rintro ⟨_, _, _, ⟨rfl, rfl⟩, ⟨front, terminated, _, hscan, ⟨hend, _, _, _, ⟨rfl, rfl⟩,
      ⟨rfl, rfl⟩, rfl⟩, rfl⟩, rfl⟩
    rcases hscan with ⟨⟨chars, hascii, rfl⟩, _⟩ | ⟨_, _, rfl⟩
    · refine ⟨chars, hascii, by simp, ?_⟩
      simp
    · exact (hend Bool.false_ne_true).elim
  · rintro ⟨chars, hascii, rfl, rfl⟩
    refine ⟨[], p, _, ⟨rfl, rfl⟩, ⟨chars ++ [0x00], true, [], .inl ⟨⟨chars, hascii, rfl⟩, rfl⟩,
      ⟨not_not_intro rfl, [], _, [], ⟨rfl, rfl⟩, ⟨rfl, ?_⟩, rfl⟩, (List.append_nil _).symm⟩, rfl⟩
    simp

end Strings

-- An encoding of a data object and what a node holds of it.
def Encodes (p : Nat) (code : List UInt8) (f : Filling) : Prop :=
  ∃ o : DataObject, code = o.encode ∧ f = o.held p

section Objects

variable {data : List UInt8} {p : Nat} {op : UInt8} {G : Nat → List UInt8 → Filling → Prop}

-- The objects of one byte are read as the value behind it is.
theorem readConst_encodes {value : Exec AmlStop Nat Filling} (hop : data[p]? = some op)
    (h : Scans data AmlStop.refused value G (p + 1))
    (hG : ∀ back f, G (p + 1) back f ↔
      ∃ o : DataObject, o.op = op ∧ back = o.payload ∧ f = o.held p) :
    Scans data AmlStop.refused (readConst data op value) Encodes p := by
  refine (readConst_scans h).congr_here fun code f hstarts => ?_
  constructor
  · rintro ⟨back, rfl, hback⟩
    obtain ⟨o, rfl, rfl, rfl⟩ := (hG back f).mp hback
    exact ⟨o, rfl, rfl⟩
  · rintro ⟨o, rfl, rfl⟩
    have hfirst : [o.op] <+: data.drop p := (List.prefix_append [o.op] o.payload).trans hstarts
    have hsame := (prefix_singleton_iff.mp hfirst).symm.trans hop
    cases hsame
    exact ⟨o.payload, rfl, (hG _ _).mpr ⟨o, rfl, rfl, rfl⟩⟩

-- A form of one byte stands for one object.
theorem fixed_encodes (o : DataObject) (hop : data[p]? = some o.op) (hempty : o.payload = [])
    (honly : ∀ o' : DataObject, o'.op = o.op → o' = o) :
    Scans data AmlStop.refused (readConst data o.op (pure (o.held p))) Encodes p := by
  refine readConst_encodes hop (Scans.pure _) fun back f => ⟨?_, ?_⟩
  · rintro ⟨rfl, rfl⟩
    exact ⟨o, rfl, hempty.symm, rfl⟩
  · rintro ⟨o', ho, rfl, rfl⟩
    obtain rfl := honly o' ho
    exact ⟨hempty, rfl⟩

-- A form with a number behind the byte stands for the objects of the numbers of so many bits.
theorem number_encodes {w : Nat} {m : Exec AmlStop Nat (BitVec w)} (make : BitVec w → DataObject)
    (hop : data[p]? = some op)
    (h : Scans data AmlStop.refused m (fun _ code v => code = bytesOf (w / 8) v.toNat) (p + 1))
    (hmake : ∀ v, (make v).op = op ∧ (make v).payload = bytesOf (w / 8) v.toNat ∧
      (make v).held p = ⟨.integer, some (.integer (v.setWidth 64) (w / 8))⟩)
    (honly : ∀ o : DataObject, o.op = op → ∃ v, o = make v) :
    Scans data AmlStop.refused (readConst data op (readInteger m)) Encodes p := by
  refine readConst_encodes hop (readInteger_scans h) fun back f => ⟨?_, ?_⟩
  · rintro ⟨v, rfl, rfl⟩
    obtain ⟨ho, hpayload, hheld⟩ := hmake v
    exact ⟨make v, ho, hpayload.symm, hheld.symm⟩
  · rintro ⟨o, ho, rfl, rfl⟩
    obtain ⟨v, rfl⟩ := honly o ho
    exact ⟨v, (hmake v).2.1, (hmake v).2.2⟩

theorem string_encodes (hop : data[p]? = some AML_STRING_PREFIX) :
    Scans data AmlStop.refused (readConst data AML_STRING_PREFIX (readString data)) Encodes p := by
  have hp : p + 1 ≤ data.length := (List.getElem?_eq_some_iff.mp hop).1
  refine readConst_encodes hop (readString_scans hp) fun back f => ⟨?_, ?_⟩
  · rintro ⟨chars, hascii, rfl, rfl⟩
    exact ⟨.string chars hascii, rfl, rfl, rfl⟩
  · rintro ⟨o, ho, rfl, rfl⟩
    cases o <;> simp [DataObject.op, AML_STRING_PREFIX] at ho
    exact ⟨_, by assumption, rfl, rfl⟩

-- No object starts with a byte that is none of these.
theorem no_encodes (hop : data[p]? = some op) (hdata : ¬ IsDataOp op) :
    Scans data AmlStop.refused (throw .refused) Encodes p := by
  refine Scans.throw.congr_here fun code f hstarts => iff_of_false not_false ?_
  rintro ⟨o, rfl, rfl⟩
  have hfirst : [o.op] <+: data.drop p := (List.prefix_append [o.op] o.payload).trans hstarts
  have hsame := (prefix_singleton_iff.mp hfirst).symm.trans hop
  exact hdata (Option.some.inj hsame ▸ o.isDataOp_op)

theorem dataReader_scans (hop : data[p]? = some op) :
    Scans data AmlStop.refused (dataReader data op) Encodes p := by
  unfold dataReader
  split_ifs with hzero hone hones hbyte hword hdword hqword hstring
  · subst hzero
    refine fixed_encodes .zero hop rfl fun o ho => ?_
    cases o <;> first | rfl | exact absurd ho (by simp [DataObject.op])
  · subst hone
    refine fixed_encodes .one hop rfl fun o ho => ?_
    cases o <;> first | rfl | exact absurd ho (by simp [DataObject.op])
  · subst hones
    refine fixed_encodes .ones hop rfl fun o ho => ?_
    cases o <;> first | rfl | exact absurd ho (by simp [DataObject.op])
  · subst hbyte
    refine number_encodes .byte hop amlParseByte_scans (fun v => ⟨rfl, rfl, rfl⟩) fun o ho => ?_
    cases o <;> first | exact ⟨_, rfl⟩ | exact absurd ho (by simp [DataObject.op, AML_BYTE_PREFIX])
  · subst hword
    refine number_encodes .word hop (orBytes_number rfl) (fun v => ⟨rfl, rfl, rfl⟩) fun o ho => ?_
    cases o <;> first | exact ⟨_, rfl⟩ | exact absurd ho (by simp [DataObject.op, AML_WORD_PREFIX])
  · subst hdword
    refine number_encodes .dword hop (orBytes_number rfl) (fun v => ⟨rfl, rfl, rfl⟩) fun o ho => ?_
    cases o <;> first | exact ⟨_, rfl⟩ | exact absurd ho (by simp [DataObject.op, AML_DWORD_PREFIX])
  · subst hqword
    refine number_encodes .qword hop (orBytes_number rfl)
      (fun v => ⟨rfl, rfl, by simp [DataObject.held]⟩) fun o ho => ?_
    cases o <;> first | exact ⟨_, rfl⟩ | exact absurd ho (by simp [DataObject.op, AML_QWORD_PREFIX])
  · subst hstring
    exact string_encodes hop
  · refine no_encodes hop ?_
    unfold IsDataOp
    tauto

end Objects

end AosKernel.Aml
