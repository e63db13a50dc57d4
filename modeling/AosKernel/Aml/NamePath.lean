import Mathlib.Data.List.Forall2
import AosKernel.Aml.DataObject

namespace AosKernel.Aml

open Verif Exec

-- The characters of a name: the first one, and the others.
def LeadNameChar (c : UInt8) : Prop := 0x41 ≤ c ∧ c ≤ 0x5A ∨ c = 0x5F

def NameChar (c : UInt8) : Prop := LeadNameChar c ∨ 0x30 ≤ c ∧ c ≤ 0x39

structure NameSeg where
  c₀ : UInt8
  c₁ : UInt8
  c₂ : UInt8
  c₃ : UInt8
  lead : LeadNameChar c₀
  name₁ : NameChar c₁
  name₂ : NameChar c₂
  name₃ : NameChar c₃

def NameSeg.bytes (s : NameSeg) : List UInt8 := [s.c₀, s.c₁, s.c₂, s.c₃]

-- The grammar of AML: a segment, two, as many as a byte says, or none.
inductive NamePath
  | seg (s : NameSeg)
  | dual (s s' : NameSeg)
  | multi (segs : List NameSeg) (count : 1 ≤ segs.length ∧ segs.length ≤ 255)
  | null

namespace NamePath

def encode : NamePath → List UInt8
  | seg s => s.bytes
  | dual s s' => 0x2E :: (s.bytes ++ s'.bytes)
  | multi segs _ => 0x2F :: UInt8.ofNat segs.length :: segs.flatMap NameSeg.bytes
  | null => [0x00]

def segments : NamePath → List (List UInt8)
  | seg s => [s.bytes]
  | dual s s' => [s.bytes, s'.bytes]
  | multi segs _ => segs.map NameSeg.bytes
  | null => []

-- What a node holds of the path whose encoding starts at `p`.
def held (p : Nat) : NamePath → Filling
  | seg s => ⟨.nameSeg, some (.nameSeg (s.bytes ++ [0]))⟩
  | dual s s' => ⟨.dualNameSeg, some (.dualNameSeg (s.bytes ++ s'.bytes ++ [0]))⟩
  | multi segs _ => ⟨.multiNameSeg, some (.multiNameSeg (UInt8.ofNat segs.length) (p + 2))⟩
  | null => ⟨.nullName, none⟩

end NamePath

-- The segments that a node gives.
def AmlNode.segments (data : List UInt8) (node : AmlNode) : Option (List (List UInt8)) :=
  match node.type, node.value with
  | .nameSeg, .nameSeg chars => some [chars.take 4]
  | .dualNameSeg, .dualNameSeg chars => some [chars.take 4, (chars.drop 4).take 4]
  | .multiNameSeg, .multiNameSeg count ptr =>
      some ((List.range count.toNat).map fun i => (data.drop (ptr + 4 * i)).take 4)
  | .nullName, _ => some []
  | _, _ => none

-- The characters of segments, where `k` came before.
def SegChars : Nat → List UInt8 → Prop
  | _, [] => True
  | k, c :: rest => (if k % 4 = 0 then LeadNameChar c else NameChar c) ∧ SegChars (k + 1) rest

-- A path of several segments with less of them than it says, none of their characters wrong.
def Truncated (rest : List UInt8) : Prop :=
  ∃ count tail, rest = 0x2F :: count :: tail ∧ count ≠ 0 ∧ tail.length < 4 * count.toNat ∧
    SegChars 0 tail

-- What aml_parse_namepath reads after a peek at the byte.
def pathReader (data : List UInt8) (op : UInt8) : Exec AmlStop Nat Filling :=
  if op = AML_DUAL_NAME_PREFIX then
    readConst data AML_DUAL_NAME_PREFIX do
      let chars ← readChars data (segChecks ++ segChecks)
      pure ⟨.dualNameSeg, some (.dualNameSeg (chars ++ [0]))⟩
  else if op = AML_MULTI_NAME_PREFIX then
    readConst data AML_MULTI_NAME_PREFIX (readSegments data)
  else if op = 0 then readConst data 0 (pure ⟨.nullName, none⟩)
  else do
    let chars ← readChars data segChecks
    pure ⟨.nameSeg, some (.nameSeg (chars ++ [0]))⟩

section Characters

variable {data : List UInt8} {p k : Nat} {c : UInt8}

theorem amlIsLeadNameChar_iff : amlIsLeadNameChar c = true ↔ LeadNameChar c := by
  simp [amlIsLeadNameChar, LeadNameChar]

theorem amlIsNameChar_iff : amlIsNameChar c = true ↔ NameChar c := by
  simp [amlIsNameChar, NameChar, amlIsLeadNameChar_iff]

theorem segChars_add_four {l : List UInt8} : SegChars (k + 4) l ↔ SegChars k l := by
  induction l generalizing k with
  | nil => exact Iff.rfl
  | cons c rest ih =>
      rw [SegChars, SegChars, Nat.add_mod_right, show k + 4 + 1 = k + 1 + 4 by omega, ih]

-- Four characters that are right are a segment.
theorem segChars_four {rest : List UInt8} {c₀ c₁ c₂ c₃ : UInt8} :
    SegChars 0 (c₀ :: c₁ :: c₂ :: c₃ :: rest) ↔
      (∃ s : NameSeg, s.bytes = [c₀, c₁, c₂, c₃]) ∧ SegChars 0 rest := by
  have hrest : SegChars 4 rest ↔ SegChars 0 rest := segChars_add_four (k := 0)
  simp only [SegChars, Nat.zero_mod, if_true, Nat.reduceAdd, Nat.reduceMod, hrest]
  constructor
  · rintro ⟨h₀, h₁, h₂, h₃, hall⟩
    exact ⟨⟨⟨c₀, c₁, c₂, c₃, h₀, h₁, h₂, h₃⟩, rfl⟩, hall⟩
  · rintro ⟨⟨s, hs⟩, hall⟩
    cases hs
    exact ⟨s.lead, s.name₁, s.name₂, s.name₃, hall⟩

theorem segChars_iff {count : Nat} {l : List UInt8} : l.length = 4 * count ∧ SegChars 0 l ↔
    ∃ segs : List NameSeg, segs.length = count ∧ l = segs.flatMap NameSeg.bytes := by
  induction count generalizing l with
  | zero =>
      constructor
      · rintro ⟨hlength, _⟩
        exact ⟨[], rfl, List.length_eq_zero_iff.mp hlength⟩
      · rintro ⟨segs, hcount, rfl⟩
        rw [List.length_eq_zero_iff.mp hcount]
        exact ⟨rfl, trivial⟩
  | succ count ih =>
      constructor
      · rintro ⟨hlength, hchars⟩
        match l, hlength with
        | c₀ :: c₁ :: c₂ :: c₃ :: rest, hlength =>
            obtain ⟨⟨s, hs⟩, hrest⟩ := segChars_four.mp hchars
            have hcount : rest.length = 4 * count := by
              simp only [List.length_cons] at hlength
              omega
            obtain ⟨segs, hsegs, rfl⟩ := ih.mp ⟨hcount, hrest⟩
            exact ⟨s :: segs, by rw [List.length_cons, hsegs], by
              rw [List.flatMap_cons, hs]
              rfl⟩
      · rintro ⟨segs, hcount, rfl⟩
        obtain ⟨s, segs, rfl⟩ := List.exists_cons_of_length_eq_add_one hcount
        obtain ⟨hlength, hchars⟩ := ih.mpr ⟨segs, Nat.succ.inj hcount, rfl⟩
        refine ⟨?_, segChars_four.mpr ⟨⟨s, rfl⟩, hchars⟩⟩
        rw [List.flatMap_cons, List.length_append, hlength]
        simp only [NameSeg.bytes, List.length_cons, List.length_nil]
        omega

theorem readChars_scans (checks : List (UInt8 → Bool)) (p : Nat) :
    Scans data AmlStop.refused (readChars data checks) (fun _ code chars =>
      code = chars ∧ List.Forall₂ (fun ok c => ok c = true) checks chars) p := by
  induction checks generalizing p with
  | nil =>
      refine (Scans.pure _).congr fun code chars => ?_
      constructor
      · rintro ⟨rfl, rfl⟩
        exact ⟨rfl, .nil⟩
      · rintro ⟨rfl, ⟨⟩⟩
        exact ⟨rfl, rfl⟩
  | cons ok rest ih =>
      refine (amlNext_bind fun c => Scans.checked fun _ =>
        (ih (p + 1)).bind fun _ cs _ _ => Scans.pure (c :: cs)).congr fun code chars => ?_
      constructor
      · rintro ⟨c, _, rfl, hc, front, cs, _, ⟨rfl, hcs⟩, ⟨rfl, rfl⟩, rfl⟩
        exact ⟨by rw [List.append_nil], .cons (not_not.mp hc) hcs⟩
      · rintro ⟨rfl, hall⟩
        cases hall with
        | cons hc hcs =>
            exact ⟨_, _, rfl, not_not_intro hc, _, _, [], ⟨rfl, hcs⟩, ⟨rfl, rfl⟩,
              (List.append_nil _).symm⟩

end Characters

-- Characters of segments up to the last of them, or up to the end of the stream.
def SegScan (data : List UInt8) (segments : UInt8) (k p : Nat) (code : List UInt8) : Prop :=
  SegChars k code ∧ (code.length + k = 4 * segments.toNat ∨
    code.length + k < 4 * segments.toNat ∧ p + code.length = data.length)

section Segments

variable {data : List UInt8} {p k : Nat} {c op : UInt8}

theorem toNat_succ {a b : UInt8} (h : a.toNat < b.toNat) : (a + 1).toNat = a.toNat + 1 := by
  have hb : b.toNat < 256 := b.toNat_lt
  rw [UInt8.toNat_add, UInt8.toNat_one, Nat.mod_eq_of_lt (by omega)]

theorem segScan_cons {segments : UInt8} {back : List UInt8} :
    SegScan data segments k p (c :: back) ↔
      (if k % 4 = 0 then LeadNameChar c else NameChar c) ∧
        SegScan data segments (k + 1) (p + 1) back := by
  have hlength : (c :: back).length + k = back.length + (k + 1) := by
    rw [List.length_cons]
    omega
  have hend : p + (c :: back).length = p + 1 + back.length := by
    rw [List.length_cons]
    omega
  rw [SegScan, SegScan, SegChars, hlength, hend, and_assoc]

-- A character is checked as the first of a segment or as another one.
theorem segment_check {bytes : UInt8} {consumed : Nat} (hbytes : bytes.toNat < 4)
    (hk : k = 4 * consumed + bytes.toNat) :
    (if bytes = 0 then amlIsLeadNameChar c else amlIsNameChar c) = true ↔
      if k % 4 = 0 then LeadNameChar c else NameChar c := by
  by_cases hzero : bytes = 0
  · have hmod : k % 4 = 0 := by
      rw [hk, hzero, UInt8.toNat_zero]
      omega
    rw [if_pos hzero, if_pos hmod, amlIsLeadNameChar_iff]
  · have hmod : k % 4 ≠ 0 := by
      rw [← UInt8.toNat_inj, UInt8.toNat_zero] at hzero
      omega
    rw [if_neg hzero, if_neg hmod, amlIsNameChar_iff]

-- The loop is at character `k`, which is `bytes` of the segment behind `consumed` whole ones.
theorem multiLoop_scans {segments consumed bytes : UInt8} {left : Nat}
    (hleft : p + left = data.length) (hconsumed : consumed.toNat < segments.toNat)
    (hbytes : bytes.toNat < 4) (hk : k = 4 * consumed.toNat + bytes.toNat) :
    Scans data AmlStop.refused (multiLoop data segments left consumed bytes)
      (fun p code _ => SegScan data segments k p code) p := by
  induction left generalizing p k consumed bytes with
  | zero =>
      refine (Scans.pure ()).congr_here fun code u hstarts => ?_
      rw [List.drop_eq_nil_of_le (by omega)] at hstarts
      obtain rfl := List.prefix_nil.mp hstarts
      exact iff_of_true ⟨rfl, rfl⟩ ⟨trivial, .inr ⟨by rw [List.length_nil]; omega, hleft⟩⟩
  | succ left ih =>
      have hfour : (4 : UInt8).toNat = 4 := rfl
      have hnext : (bytes + 1).toNat = bytes.toNat + 1 := toNat_succ (by rw [hfour]; exact hbytes)
      have hstep (c : UInt8) : Scans data AmlStop.refused
          (if ¬ (if bytes = 0 then amlIsLeadNameChar c else amlIsNameChar c) then throw .refused
            else if bytes + 1 = 4 then
              if consumed + 1 = segments then pure ()
              else multiLoop data segments left (consumed + 1) 0
            else multiLoop data segments left consumed (bytes + 1))
          (fun p back _ => (if k % 4 = 0 then LeadNameChar c else NameChar c) ∧
            SegScan data segments (k + 1) p back) (p + 1) := by
        refine (Scans.checked (G := fun p back _ => SegScan data segments (k + 1) p back)
          fun _ => ?_).congr fun back u => by rw [not_not, segment_check hbytes hk]
        by_cases hwhole : bytes + 1 = 4
        · rw [if_pos hwhole]
          rw [← UInt8.toNat_inj, hnext, hfour] at hwhole
          have hlast := toNat_succ hconsumed
          by_cases hdone : consumed + 1 = segments
          · rw [if_pos hdone]
            rw [← UInt8.toNat_inj, hlast] at hdone
            refine (Scans.pure ()).congr fun back u => ?_
            constructor
            · rintro ⟨rfl, _⟩
              exact ⟨trivial, .inl (by rw [List.length_nil]; omega)⟩
            · rintro ⟨_, hlength⟩
              exact ⟨List.length_eq_zero_iff.mp (by omega), rfl⟩
          · rw [if_neg hdone]
            rw [← UInt8.toNat_inj, hlast] at hdone
            exact ih (by omega) (by omega) (by decide) (by rw [UInt8.toNat_zero]; omega)
        · rw [if_neg hwhole]
          rw [← UInt8.toNat_inj, hnext, hfour] at hwhole
          exact ih (by omega) hconsumed (by omega) (by omega)
      refine (amlNext_bind hstep).congr_here fun code u hstarts => ?_
      cases code with
      | nil =>
          refine iff_of_false (fun ⟨_, _, hcode, _⟩ => by cases hcode) ?_
          rintro ⟨_, hlength⟩
          rw [List.length_nil] at hlength
          omega
      | cons c back =>
          rw [segScan_cons]
          constructor
          · rintro ⟨_, _, hcode, hscan⟩
            cases hcode
            exact hscan
          · intro hscan
            exact ⟨c, back, rfl, hscan⟩

theorem readSegments_scans : Scans data AmlStop.refused (readSegments data)
    (fun p code f => ∃ count back, code = count :: back ∧ count ≠ 0 ∧
      SegScan data count 0 (p + 1) back ∧ f = ⟨.multiNameSeg, some (.multiNameSeg count (p + 1))⟩)
        p := by
  have hstep (count : UInt8) (hcount : data[p]? = some count) : Scans data AmlStop.refused
      (if count < 1 then throw .refused
        else do
          let start ← get
          multiLoop data count (data.length - start) 0 0
          pure (Filling.mk .multiNameSeg (some (.multiNameSeg count start))))
      (fun p back f => count ≠ 0 ∧ SegScan data count 0 p back ∧
        f = ⟨.multiNameSeg, some (.multiNameSeg count p)⟩) (p + 1) := by
    have hp : p < data.length := (List.getElem?_eq_some_iff.mp hcount).1
    have hzero : ¬ count < 1 ↔ count ≠ 0 := by
      rw [UInt8.lt_iff_toNat_lt, UInt8.toNat_one, ne_eq, ← UInt8.toNat_inj, UInt8.toNat_zero]
      omega
    refine (Scans.checked (G := fun p back f => SegScan data count 0 p back ∧
        f = ⟨.multiNameSeg, some (.multiNameSeg count p)⟩) fun hmany => ?_).congr
      fun back f => by rw [hzero]
    rw [hzero, ne_eq, ← UInt8.toNat_inj, UInt8.toNat_zero] at hmany
    refine (Scans.place.bind (H := fun start p back f => SegScan data count 0 p back ∧
        f = ⟨.multiNameSeg, some (.multiNameSeg count start)⟩) ?_).congr fun back f => ?_
    · rintro _ start ⟨rfl, rfl⟩ _
      have hloop : Scans data AmlStop.refused (multiLoop data count (data.length - (p + 1)) 0 0)
          (fun p code _ => SegScan data count 0 p code) (p + 1 + ([] : List UInt8).length) :=
        multiLoop_scans (by rw [List.length_nil]; omega) (by rw [UInt8.toNat_zero]; omega)
          (by decide) rfl
      refine (hloop.bind fun _ _ _ _ => Scans.pure _).congr fun back f => ?_
      constructor
      · rintro ⟨front, _, _, hscan, ⟨rfl, rfl⟩, rfl⟩
        exact ⟨by rwa [List.append_nil], rfl⟩
      · rintro ⟨hscan, rfl⟩
        exact ⟨back, (), [], hscan, ⟨rfl, rfl⟩, (List.append_nil _).symm⟩
    · constructor
      · rintro ⟨_, _, back, ⟨rfl, rfl⟩, hback, rfl⟩
        exact hback
      · intro hback
        exact ⟨[], _, back, ⟨rfl, rfl⟩, hback, rfl⟩
  exact amlNext_bind_here hstep

end Segments

-- A path, or the part of one that the loop over the segments lets pass: what is left of the
-- stream behind the number of them.
def PathScan (data : List UInt8) (p : Nat) (code : List UInt8) (f : Filling) : Prop :=
  (∃ path : NamePath, code = path.encode ∧ f = path.held p) ∨
    ∃ count back, code = 0x2F :: count :: back ∧ count ≠ 0 ∧ SegChars 0 back ∧
      back.length < 4 * count.toNat ∧ p + 2 + back.length = data.length ∧
        f = ⟨.multiNameSeg, some (.multiNameSeg count (p + 2))⟩

section Paths

variable {data code chars : List UInt8} {p : Nat} {c op : UInt8} {f : Filling}

theorem segChecks_iff : List.Forall₂ (fun ok c => ok c = true) segChecks chars ↔
    ∃ s : NameSeg, chars = s.bytes := by
  simp only [segChecks, List.forall₂_cons_left_iff, List.forall₂_nil_left_iff,
    amlIsLeadNameChar_iff, amlIsNameChar_iff]
  constructor
  · rintro ⟨c₀, _, h₀, ⟨c₁, _, h₁, ⟨c₂, _, h₂, ⟨c₃, _, h₃, rfl, rfl⟩, rfl⟩, rfl⟩, rfl⟩
    exact ⟨⟨c₀, c₁, c₂, c₃, h₀, h₁, h₂, h₃⟩, rfl⟩
  · rintro ⟨s, rfl⟩
    exact ⟨_, _, s.lead, ⟨_, _, s.name₁, ⟨_, _, s.name₂, ⟨_, _, s.name₃, rfl, rfl⟩, rfl⟩, rfl⟩, rfl⟩

theorem segChecks_twice_iff :
    List.Forall₂ (fun ok c => ok c = true) (segChecks ++ segChecks) chars ↔
      ∃ s s' : NameSeg, chars = s.bytes ++ s'.bytes := by
  constructor
  · intro h
    obtain ⟨s, hs⟩ := segChecks_iff.mp (List.forall₂_take 4 h)
    obtain ⟨s', hs'⟩ := segChecks_iff.mp (List.forall₂_drop 4 h)
    exact ⟨s, s', by rw [← hs, ← hs', List.take_append_drop]⟩
  · rintro ⟨s, s', rfl⟩
    exact List.rel_append (segChecks_iff.mpr ⟨s, rfl⟩) (segChecks_iff.mpr ⟨s', rfl⟩)

-- The first byte says of which form a path is.
theorem NamePath.first_byte (path : NamePath) (h : path.encode <+: data.drop p)
    (hop : data[p]? = some op) : path.encode.head? = some op := by
  cases hcode : path.encode with
  | nil => cases path <;> cases hcode
  | cons c rest =>
      rw [hcode] at h
      have hfirst := prefix_singleton_iff.mp ((List.prefix_append [c] rest).trans h)
      exact hfirst.symm.trans hop

-- No segment starts with the byte of another form.
theorem seg_first_byte {s : NameSeg} (h : (NamePath.seg s).encode.head? = some op) :
    ¬ (op = 0x2E ∨ op = 0x2F ∨ op = 0) := by
  have hlead := s.lead
  rw [show s.c₀ = op from Option.some.inj h] at hlead
  unfold LeadNameChar at hlead
  rintro (rfl | rfl | rfl) <;> exact absurd hlead (by decide)

-- What starts with the byte of a multi path is no other form.
theorem multi_first_byte {count : UInt8} {back : List UInt8} (hop : data[p]? = some op)
    (hstarts : 0x2F :: count :: back <+: data.drop p) : op = 0x2F := by
  have hfirst := prefix_singleton_iff.mp ((List.prefix_append [0x2F] (count :: back)).trans hstarts)
  exact Option.some.inj (hop.symm.trans hfirst)

theorem dual_scans (hop : data[p]? = some AML_DUAL_NAME_PREFIX) :
    Scans data AmlStop.refused (readConst data AML_DUAL_NAME_PREFIX do
      let chars ← readChars data (segChecks ++ segChecks)
      pure ⟨.dualNameSeg, some (.dualNameSeg (chars ++ [0]))⟩) (PathScan data) p := by
  refine (readConst_scans ((readChars_scans _ _).bind fun _ chars _ _ =>
    Scans.pure _)).congr_here fun code f hstarts => ?_
  constructor
  · rintro ⟨_, rfl, front, chars, _, ⟨rfl, hchars⟩, ⟨rfl, rfl⟩, rfl⟩
    obtain ⟨s, s', rfl⟩ := segChecks_twice_iff.mp hchars
    exact .inl ⟨.dual s s', by rw [List.append_nil]; rfl, rfl⟩
  · rintro (⟨path, rfl, rfl⟩ | ⟨count, back, rfl, _⟩)
    · have hfirst := path.first_byte hstarts hop
      cases path with
      | seg s => exact absurd (.inl rfl) (seg_first_byte hfirst)
      | dual s s' =>
          exact ⟨_, rfl, _, _, [], ⟨rfl, segChecks_twice_iff.mpr ⟨s, s', rfl⟩⟩, ⟨rfl, rfl⟩,
            (List.append_nil _).symm⟩
      | multi segs count => exact absurd (Option.some.inj hfirst) (by decide)
      | null => exact absurd (Option.some.inj hfirst) (by decide)
    · exact absurd (multi_first_byte hop hstarts) (by decide)

theorem multi_scans (hop : data[p]? = some AML_MULTI_NAME_PREFIX) :
    Scans data AmlStop.refused (readConst data AML_MULTI_NAME_PREFIX (readSegments data))
      (PathScan data) p := by
  refine (readConst_scans readSegments_scans).congr_here fun code f hstarts => ?_
  constructor
  · rintro ⟨_, rfl, count, back, rfl, hcount, ⟨hchars, hlength⟩, rfl⟩
    rw [Nat.add_zero] at hlength
    rcases hlength with hlength | ⟨hlength, hend⟩
    · obtain ⟨segs, hsegs, rfl⟩ := segChars_iff.mp ⟨hlength, hchars⟩
      have hlt : count.toNat < 256 := count.toNat_lt
      have hpos : count.toNat ≠ 0 := fun h => hcount (UInt8.toNat_inj.mp h)
      have hsame : UInt8.ofNat segs.length = count := by
        rw [hsegs, UInt8.ofNat_toNat]
      refine .inl ⟨.multi segs ⟨by omega, by omega⟩, ?_, ?_⟩
      · exact congrArg (fun c => 0x2F :: c :: segs.flatMap NameSeg.bytes) hsame.symm
      · exact congrArg (fun c => Filling.mk .multiNameSeg (some (.multiNameSeg c (p + 2))))
          hsame.symm
    · exact .inr ⟨count, back, rfl, hcount, hchars, hlength, hend, rfl⟩
  · rintro (⟨path, rfl, rfl⟩ | ⟨count, back, rfl, hcount, hchars, hlength, hend, rfl⟩)
    · have hfirst := path.first_byte hstarts hop
      cases path with
      | seg s => exact absurd (.inr (.inl rfl)) (seg_first_byte hfirst)
      | dual s s' => exact absurd (Option.some.inj hfirst) (by decide)
      | multi segs count =>
          have hnat : (UInt8.ofNat segs.length).toNat = segs.length := by
            rw [UInt8.toNat_ofNat', Nat.mod_eq_of_lt (by omega)]
          obtain ⟨hlength, hchars⟩ := segChars_iff.mpr ⟨segs, rfl, rfl⟩
          refine ⟨_, rfl, _, _, rfl, ?_, ⟨hchars, .inl ?_⟩, rfl⟩
          · rw [ne_eq, ← UInt8.toNat_inj, hnat, UInt8.toNat_zero]
            omega
          · rw [hnat, hlength]
            rfl
      | null => exact absurd (Option.some.inj hfirst) (by decide)
    · exact ⟨_, rfl, count, back, rfl, hcount, ⟨hchars, .inr ⟨hlength, hend⟩⟩, rfl⟩

theorem null_scans (hop : data[p]? = some 0) :
    Scans data AmlStop.refused (readConst data 0 (pure ⟨.nullName, none⟩)) (PathScan data) p := by
  refine (readConst_scans (Scans.pure _)).congr_here fun code f hstarts => ?_
  constructor
  · rintro ⟨_, rfl, rfl, rfl⟩
    exact .inl ⟨.null, rfl, rfl⟩
  · rintro (⟨path, rfl, rfl⟩ | ⟨count, back, rfl, _⟩)
    · have hfirst := path.first_byte hstarts hop
      cases path with
      | seg s => exact absurd (.inr (.inr rfl)) (seg_first_byte hfirst)
      | dual s s' => exact absurd (Option.some.inj hfirst) (by decide)
      | multi segs count => exact absurd (Option.some.inj hfirst) (by decide)
      | null => exact ⟨[], rfl, rfl, rfl⟩
    · exact absurd (multi_first_byte hop hstarts) (by decide)

theorem seg_scans (hop : data[p]? = some op) (hother : ¬ (op = 0x2E ∨ op = 0x2F ∨ op = 0)) :
    Scans data AmlStop.refused (do
      let chars ← readChars data segChecks
      pure ⟨.nameSeg, some (.nameSeg (chars ++ [0]))⟩) (PathScan data) p := by
  refine ((readChars_scans _ _).bind fun _ chars _ _ => Scans.pure _).congr_here
    fun code f hstarts => ?_
  constructor
  · rintro ⟨front, chars, _, ⟨rfl, hchars⟩, ⟨rfl, rfl⟩, rfl⟩
    obtain ⟨s, rfl⟩ := segChecks_iff.mp hchars
    exact .inl ⟨.seg s, List.append_nil _, rfl⟩
  · rintro (⟨path, rfl, rfl⟩ | ⟨count, back, rfl, _⟩)
    · have hfirst := path.first_byte hstarts hop
      cases path with
      | seg s =>
          exact ⟨_, _, [], ⟨rfl, segChecks_iff.mpr ⟨s, rfl⟩⟩, ⟨rfl, rfl⟩, (List.append_nil _).symm⟩
      | dual s s' => exact absurd (.inl (Option.some.inj hfirst).symm) hother
      | multi segs count => exact absurd (.inr (.inl (Option.some.inj hfirst).symm)) hother
      | null => exact absurd (.inr (.inr (Option.some.inj hfirst).symm)) hother
    · exact absurd (.inr (.inl (multi_first_byte hop hstarts))) hother

theorem pathReader_scans (hop : data[p]? = some op) :
    Scans data AmlStop.refused (pathReader data op) (PathScan data) p := by
  unfold pathReader
  split_ifs with hdual hmulti hnull
  · subst hdual
    exact dual_scans hop
  · subst hmulti
    exact multi_scans hop
  · subst hnull
    exact null_scans hop
  · refine seg_scans hop ?_
    rintro (h | h | h)
    · exact hdual h
    · exact hmulti h
    · exact hnull h

end Paths

-- What aml_parse_namepath is to do: it succeeds where a path starts and ends in the stream, and
-- then moves behind it and returns its segments. It reads no byte outside the stream.
structure ReadsPath (data : List UInt8) (gives : Nat → Option (Nat → AmlNode)) (s : AmlState) :
    Prop where
  succeeds_iff : (∃ n t, Returns (amlParseNamepath data gives) s n t) ↔
    ∃ path : NamePath, path.encode <+: data.drop s.ptr
  reads : ∀ n t, Returns (amlParseNamepath data gives) s n t → ∃ path : NamePath,
    path.encode <+: data.drop s.ptr ∧ t.ptr = s.ptr + path.encode.length ∧
      (t.heap.node n).segments data = some path.segments
  inside : ¬ Stops (amlParseNamepath data gives) s .outside

section Result

variable {data : List UInt8} {gives : Nat → Option (Nat → AmlNode)} {s t : AmlState} {n : NodePtr}
  {op : UInt8} {path : NamePath}

theorem amlParseNamepath_run (hop : data[s.ptr]? = some op) :
    (amlParseNamepath data gives).run s = (readNode gives (pathReader data op)).run s := by
  unfold amlParseNamepath
  rw [peek_run hop]
  unfold pathReader
  split_ifs <;> rfl

theorem take_flatMap_bytes (segs : List NameSeg) (rest : List UInt8) :
    ((List.range segs.length).map fun i =>
      ((segs.flatMap NameSeg.bytes ++ rest).drop (4 * i)).take 4) = segs.map NameSeg.bytes := by
  induction segs with
  | nil => rfl
  | cons s segs ih =>
      rw [List.length_cons, List.range_succ_eq_map, List.map_cons, List.map_map, List.map_cons,
        ← ih]
      rfl

theorem segments_held (hstarts : path.encode <+: data.drop s.ptr) (node : AmlNode) :
    (node.fill (path.held s.ptr)).segments data = some path.segments := by
  cases path with
  | multi segs count =>
      have hnat : (UInt8.ofNat segs.length).toNat = segs.length := by
        rw [UInt8.toNat_ofNat', Nat.mod_eq_of_lt (by omega)]
      obtain ⟨rest, hrest⟩ := hstarts
      have hdrop (i : Nat) : data.drop (s.ptr + 2 + 4 * i) =
          (segs.flatMap NameSeg.bytes ++ rest).drop (4 * i) := by
        rw [← List.drop_drop, ← List.drop_drop, ← hrest]
        rfl
      simp only [AmlNode.segments, AmlNode.fill, NamePath.held, NamePath.segments, hnat, hdrop,
        Option.getD_some, take_flatMap_bytes]
  | _ => rfl

-- A part of a path that is let pass is not the whole of one.
theorem truncated_not_path (h : Truncated (data.drop s.ptr)) :
    ¬ path.encode <+: data.drop s.ptr := by
  obtain ⟨count, tail, hdrop, _, hlength, _⟩ := h
  intro hstarts
  have hop : data[s.ptr]? = some 0x2F := by
    rw [← List.head?_drop, hdrop]
    rfl
  have hfirst := path.first_byte hstarts hop
  cases path with
  | seg s' => exact seg_first_byte hfirst (.inr (.inl rfl))
  | dual a b => exact absurd (Option.some.inj hfirst) (by decide)
  | null => exact absurd (Option.some.inj hfirst) (by decide)
  | multi segs hcount =>
      have hnat : (UInt8.ofNat segs.length).toNat = segs.length := by
        rw [UInt8.toNat_ofNat', Nat.mod_eq_of_lt (by omega)]
      rw [hdrop] at hstarts
      obtain ⟨hsame, hsegs⟩ := List.cons_prefix_cons.mp (List.cons_prefix_cons.mp hstarts).2
      have hroom := hsegs.length_le
      rw [(segChars_iff.mpr ⟨segs, rfl, rfl⟩).1, ← hnat, hsame] at hroom
      omega

-- At a byte, the parser returns for a path and for a part of one that is let pass.
theorem amlParseNamepath_returns (hop : data[s.ptr]? = some op) :
    Returns (amlParseNamepath data gives) s n t ↔ ∃ code f h, PathScan data s.ptr code f ∧
      code <+: data.drop s.ptr ∧ getNewNode gives s.heap = (some n, h) ∧
        t = ⟨s.ptr + code.length, h.modify n fun node => node.fill f⟩ := by
  unfold Returns
  rw [amlParseNamepath_run hop]
  refine readNode_returns.trans ?_
  constructor
  · rintro ⟨f, q, h, hread, hnew, rfl⟩
    obtain ⟨code, hcode, hstarts, rfl⟩ := (pathReader_scans hop).returns_iff.mp hread
    exact ⟨code, f, h, hcode, hstarts, hnew, rfl⟩
  · rintro ⟨code, f, h, hcode, hstarts, hnew, rfl⟩
    exact ⟨f, _, h, (pathReader_scans hop).complete _ _ hcode hstarts, hnew, rfl⟩

theorem readsPath_at (hop : data[s.ptr]? = some op)
    (hnode : (getNewNode gives s.heap).1.isSome) :
    ReadsPath data gives s ↔ ¬ Truncated (data.drop s.ptr) := by
  obtain ⟨n, hn⟩ := Option.isSome_iff_exists.mp hnode
  have hnew : getNewNode gives s.heap = (some n, (getNewNode gives s.heap).2) := by
    rw [← hn]
  constructor
  · rintro ⟨hsucceeds, _, _⟩ htruncated
    obtain ⟨count, tail, hdrop, hcount, hlength, hchars⟩ := htruncated
    have hend : s.ptr + 2 + tail.length = data.length := by
      have hall := congrArg List.length hdrop
      rw [List.length_drop, List.length_cons, List.length_cons] at hall
      omega
    have hret : Returns (amlParseNamepath data gives) s n _ :=
      (amlParseNamepath_returns hop).mpr ⟨_, _, _,
        .inr ⟨count, tail, rfl, hcount, hchars, hlength, hend, rfl⟩, by rw [hdrop], hnew, rfl⟩
    obtain ⟨path, hpath⟩ := hsucceeds.mp ⟨_, _, hret⟩
    exact truncated_not_path ⟨count, tail, hdrop, hcount, hlength, hchars⟩ hpath
  · intro hwhole
    have hcode {code : List UInt8} {f : Filling} (hscan : PathScan data s.ptr code f)
        (hstarts : code <+: data.drop s.ptr) :
        ∃ path : NamePath, code = path.encode ∧ f = path.held s.ptr := by
      rcases hscan with hpath | ⟨count, back, rfl, hcount, hchars, hlength, hend, _⟩
      · exact hpath
      · refine absurd ⟨count, back, ?_, hcount, hlength, hchars⟩ hwhole
        have hall : (data.drop s.ptr).length = (0x2F :: count :: back).length := by
          rw [List.length_drop, List.length_cons, List.length_cons]
          omega
        exact (hstarts.eq_of_length hall.symm).symm
    refine ⟨⟨?_, ?_⟩, fun n t hret => ?_, fun hstop => ?_⟩
    · rintro ⟨n, t, hret⟩
      obtain ⟨_, _, _, hscan, hstarts, _⟩ := (amlParseNamepath_returns hop).mp hret
      obtain ⟨path, rfl, _⟩ := hcode hscan hstarts
      exact ⟨path, hstarts⟩
    · rintro ⟨path, hstarts⟩
      exact ⟨n, _, (amlParseNamepath_returns hop).mpr
        ⟨_, _, _, .inl ⟨path, rfl, rfl⟩, hstarts, hnew, rfl⟩⟩
    · obtain ⟨_, _, h, hscan, hstarts, _, rfl⟩ := (amlParseNamepath_returns hop).mp hret
      obtain ⟨path, rfl, rfl⟩ := hcode hscan hstarts
      refine ⟨path, hstarts, rfl, ?_⟩
      rw [AmlHeap.node_modify_same]
      exact segments_held hstarts _
    · unfold Stops at hstop
      rw [amlParseNamepath_run hop] at hstop
      rcases readNode_stops.mp hstop with hread | ⟨_, _, he⟩
      · exact absurd ((pathReader_scans hop).stops_eq hread) (by decide)
      · exact absurd he (by decide)

theorem amlParseNamepath_reads_iff (hnode : (getNewNode gives s.heap).1.isSome) :
    ReadsPath data gives s ↔ s.ptr ≠ data.length ∧ ¬ Truncated (data.drop s.ptr) := by
  rcases Nat.lt_trichotomy s.ptr data.length with hlt | hend | hbehind
  · rw [and_iff_right (Nat.ne_of_lt hlt)]
    exact readsPath_at (List.getElem?_eq_getElem hlt) hnode
  · refine iff_of_false (fun h => h.inside ?_) fun h => h.1 hend
    have hpeek : Stops (amlPeek data) s.ptr .outside := by
      rw [hend]
      exact amlPeek_end
    exact stops_bind.mpr (.inl (onStream_stops.mpr hpeek))
  · have hstop : Stops (amlParseNamepath data gives) s .refused :=
      stops_bind.mpr (.inl (onStream_stops.mpr (amlPeek_behind hbehind)))
    have hnil : data.drop s.ptr = [] := List.drop_eq_nil_of_le (Nat.le_of_lt hbehind)
    refine iff_of_true ⟨⟨?_, ?_⟩, fun n t hret => absurd hret hstop.not_returns, fun h => ?_⟩
      ⟨Nat.ne_of_gt hbehind, ?_⟩
    · rintro ⟨n, t, hret⟩
      exact absurd hret hstop.not_returns
    · rintro ⟨path, hpath⟩
      rw [hnil] at hpath
      have hempty := List.prefix_nil.mp hpath
      cases path <;> cases hempty
    · cases hstop.symm.trans h
    · rintro ⟨count, tail, hdrop, _⟩
      rw [hnil] at hdrop
      cases hdrop

-- A name of one segment.
theorem amlParseNamepath_reads_iff_name :
    ReadsPath [0x5F, 0x41, 0x42, 0x30] blankBlocks ⟨0, emptyHeap⟩ := by
  refine (amlParseNamepath_reads_iff rfl).mpr ⟨by decide, ?_⟩
  rintro ⟨count, tail, hdrop, _⟩
  exact absurd (List.cons.inj hdrop).1 (by decide)

-- Of the one segment that is announced the stream has one character.
theorem amlParseNamepath_takes_part :
    ¬ ReadsPath [0x2F, 0x01, 0x41] blankBlocks ⟨0, emptyHeap⟩ := by
  have hop : ([0x2F, 0x01, 0x41] : List UInt8)[0]? = some 0x2F := rfl
  intro h
  exact (readsPath_at hop rfl).mp h
    ⟨0x01, [0x41], rfl, by decide, by decide, .inl ⟨by decide, by decide⟩, trivial⟩

end Result

end AosKernel.Aml
