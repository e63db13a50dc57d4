import AosKernel.Io.Formatters

namespace AosKernel.Io

-- Where a format string is: in plain text, or in the width, the precision or the
-- length of a conversion.
inductive Place
  | plain
  | width
  | precision
  | length
  deriving DecidableEq

-- The zero flag is a digit too, so a conversion starts with its width.
def Place.next (c : UInt8) : Place → Place
  | .plain => if c = chr '%' then .width else .plain
  | .width =>
      if isDigit c then .width
      else if c = chr '.' then .precision
      else if c = chr 'l' then .length
      else .plain
  | .precision => if isDigit c then .precision else if c = chr 'l' then .length else .plain
  | .length => if c = chr 'l' then .length else .plain

def Place.after (p : Place) : Text → Place
  | [] => p
  | c :: s => (p.next c).after s

-- The end of the string cuts no conversion short.
def Uncut (fmt : Text) : Prop := Place.plain.after fmt = .plain

instance (fmt : Text) : Decidable (Uncut fmt) := inferInstanceAs (Decidable (_ = _))

-- The scan ends in the string and its terminator, and the memory behind them makes
-- no difference to what is printed.
def ReadsInside (fmt : Text) : Prop :=
  ∃ items, formatItems (fmt ++ [0]) = some items ∧ ∀ rest args,
    serialPrintf (fmt ++ 0 :: rest) args = printfItems serialPrintc serialConvert items args ∧
    vmemPrintf (fmt ++ 0 :: rest) args = printfItems id vmemConvert items args ∧
    pyrionBuiltinPrintf (fmt ++ 0 :: rest) args = printfItems id pyrionConvert items args

theorem isDigit_nul : isDigit 0 = false := by decide

-- No character of the text would go on with what has been read.
def Stops (p : UInt8 → Prop) : Text → Prop
  | [] => True
  | c :: _ => ¬ p c

-- A reader that starts with `s` in front of the terminator stops at `t`.
structure Reads (s t : Text) : Prop where
  nul : 0 ∉ t
  length_le : t.length ≤ s.length

theorem Reads.refl {s : Text} (hs : 0 ∉ s) : Reads s s := ⟨hs, Nat.le_refl _⟩

theorem Reads.cons {c : UInt8} {s t : Text} (h : Reads s t) : Reads (c :: s) t :=
  ⟨h.nul, Nat.le_succ_of_le h.length_le⟩

theorem Reads.trans {s t u : Text} (h : Reads s t) (h' : Reads t u) : Reads s u :=
  ⟨h'.nul, Nat.le_trans h'.length_le h.length_le⟩

theorem readNumber_reads {p : Place} (hp : ∀ c, isDigit c = true → p.next c = p) (n : Int)
    (s : Text) (hs : 0 ∉ s) :
    ∃ m t, (∀ rest, readNumber n (s ++ 0 :: rest) = some (m, t ++ 0 :: rest)) ∧ Reads s t ∧
      Stops (isDigit · = true) t ∧ p.after s = p.after t := by
  induction s generalizing n with
  | nil =>
      refine ⟨n, [], fun rest => ?_, .refl hs, trivial, rfl⟩
      rw [List.nil_append, readNumber, isDigit_nul, if_neg Bool.false_ne_true]
  | cons c s ih =>
      by_cases h : isDigit c = true
      · obtain ⟨m, t, hread, hreads, hstops, hafter⟩ :=
          ih (wrapInt (n * 10 + (c - chr '0').toNat)) (fun hmem => hs (List.mem_cons_of_mem c hmem))
        refine ⟨m, t, fun rest => ?_, hreads.cons, hstops, ?_⟩
        · rw [List.cons_append, readNumber, if_pos h, hread]
        · rw [Place.after, hp c h, hafter]
      · refine ⟨n, c :: s, fun rest => ?_, .refl hs, h, rfl⟩
        rw [List.cons_append, readNumber, if_neg h]

theorem readFlag_reads (s : Text) (hs : 0 ∉ s) :
    ∃ b t, (∀ rest, readFlag (s ++ 0 :: rest) = some (b, t ++ 0 :: rest)) ∧ Reads s t ∧
      Place.width.after s = Place.width.after t := by
  cases s with
  | nil => exact ⟨false, [], fun _ => rfl, .refl hs, rfl⟩
  | cons c s =>
      by_cases h : c = chr '0'
      · have hdigit : isDigit c = true := by
          rw [h]
          decide
        have hreads := Reads.refl (fun hmem => hs (List.mem_cons_of_mem c hmem) : 0 ∉ s)
        refine ⟨true, s, fun rest => ?_, hreads.cons, ?_⟩
        · rw [List.cons_append, readFlag, if_pos h]
        · rw [Place.after, Place.next, if_pos hdigit]
      · refine ⟨false, c :: s, fun rest => ?_, .refl hs, rfl⟩
        rw [List.cons_append, readFlag, if_neg h]

theorem readPrecision_reads (s : Text) (hs : 0 ∉ s) (hstops : Stops (isDigit · = true) s) :
    ∃ m t, (∀ rest, readPrecision (s ++ 0 :: rest) = some (m, t ++ 0 :: rest)) ∧ Reads s t ∧
      Stops (isDigit · = true) t ∧
      (Place.width.after s = .plain ↔ Place.precision.after t = .plain) := by
  cases s with
  | nil => exact ⟨0, [], fun _ => rfl, .refl hs, trivial, by decide⟩
  | cons c s =>
      have hdigit : ¬ isDigit c = true := hstops
      by_cases h : c = chr '.'
      · obtain ⟨m, t, hread, hreads, hstops', hafter⟩ := readNumber_reads (p := .precision)
          (fun c hc => by rw [Place.next, if_pos hc]) 0 s
          (fun hmem => hs (List.mem_cons_of_mem c hmem))
        refine ⟨m, t, fun rest => ?_, hreads.cons, hstops', ?_⟩
        · rw [List.cons_append, readPrecision, if_pos h, hread]
        · rw [Place.after, Place.next, if_neg hdigit, if_pos h, hafter]
      · refine ⟨0, c :: s, fun rest => ?_, .refl hs, hstops, ?_⟩
        · rw [List.cons_append, readPrecision, if_neg h]
        · rw [Place.after, Place.after, Place.next, Place.next, if_neg hdigit, if_neg hdigit,
            if_neg h]

theorem readLongs_reads (n : Nat) (s : Text) (hs : 0 ∉ s) :
    ∃ m t, (∀ rest, readLongs n (s ++ 0 :: rest) = some (m, t ++ 0 :: rest)) ∧ Reads s t ∧
      Stops (· = chr 'l') t ∧ Place.length.after s = Place.length.after t := by
  induction s generalizing n with
  | nil => exact ⟨n, [], fun _ => rfl, .refl hs, trivial, rfl⟩
  | cons c s ih =>
      by_cases h : c = chr 'l'
      · obtain ⟨m, t, hread, hreads, hstops, hafter⟩ :=
          ih (n + 1) (fun hmem => hs (List.mem_cons_of_mem c hmem))
        refine ⟨m, t, fun rest => ?_, hreads.cons, hstops, ?_⟩
        · rw [List.cons_append, readLongs, if_pos h, hread]
        · rw [Place.after, Place.next, if_pos h, hafter]
      · refine ⟨n, c :: s, fun rest => ?_, .refl hs, h, rfl⟩
        rw [List.cons_append, readLongs, if_neg h]

-- Behind the precision the length begins.
theorem precision_after {s : Text} (hstops : Stops (isDigit · = true) s) :
    Place.precision.after s = .plain ↔ Place.length.after s = .plain := by
  cases s with
  | nil => decide
  | cons c s =>
      rw [Place.after, Place.after, Place.next, Place.next, if_neg hstops]

-- A conversion ends in the string or takes the terminator for its last character.
theorem readSpec_cases (s : Text) (hs : 0 ∉ s) :
    (∃ spec t, (∀ rest, readSpec (s ++ 0 :: rest) = some (spec, t ++ 0 :: rest)) ∧ 0 ∉ t ∧
      t.length < s.length ∧ (Place.width.after s = .plain ↔ Uncut t)) ∨
    ∃ spec, (∀ rest, readSpec (s ++ 0 :: rest) = some (spec, rest)) ∧ spec.conv = 0 ∧
      Place.width.after s ≠ .plain := by
  obtain ⟨b, s₁, hflag, hreads₁, hafter₁⟩ := readFlag_reads s hs
  obtain ⟨w, s₂, hwidth, hreads₂, hstops₂, hafter₂⟩ := readNumber_reads (p := .width)
    (fun c hc => by rw [Place.next, if_pos hc]) 0 s₁ hreads₁.nul
  obtain ⟨q, s₃, hprecision, hreads₃, hstops₃, hafter₃⟩ :=
    readPrecision_reads s₂ hreads₂.nul hstops₂
  obtain ⟨l, s₄, hlongs, hreads₄, hstops₄, hafter₄⟩ := readLongs_reads 0 s₃ hreads₃.nul
  have hreads := ((hreads₁.trans hreads₂).trans hreads₃).trans hreads₄
  have hplain : Place.width.after s = .plain ↔ Place.length.after s₄ = .plain := by
    rw [hafter₁, hafter₂, hafter₃, precision_after hstops₃, hafter₄]
  have hread {conv : UInt8} {mem : Text} (rest : Text) (hconv : s₄ ++ 0 :: rest = conv :: mem) :
      readSpec (s ++ 0 :: rest) = some (⟨b, w, q, l, conv⟩, mem) := by
    simp only [readSpec, hflag, hwidth, hprecision, hlongs, hconv, Option.bind_eq_bind,
      Option.bind_some]
  cases s₄ with
  | nil =>
      right
      refine ⟨⟨b, w, q, l, 0⟩, fun rest => hread rest rfl, rfl, fun h => ?_⟩
      exact absurd (hplain.mp h) (by decide)
  | cons c t =>
      left
      refine ⟨⟨b, w, q, l, c⟩, t, fun rest => hread rest rfl, ?_, ?_, ?_⟩
      · exact fun hmem => hreads.nul (List.mem_cons_of_mem c hmem)
      · exact hreads.length_le
      · rw [hplain, Place.after, Place.next, if_neg hstops₄, Uncut]

theorem uncut_percent (s : Text) : Uncut (chr '%' :: s) ↔ Place.width.after s = .plain := by
  rw [Uncut, Place.after, Place.next, if_pos rfl]

theorem uncut_literal {c : UInt8} (hc : c ≠ chr '%') (s : Text) : Uncut (c :: s) ↔ Uncut s := by
  rw [Uncut, Uncut, Place.after, Place.next, if_neg hc]

-- One round of the outer loop, on a string that is not at its end.
theorem formatItems_round {c : UInt8} (hc : c ≠ 0) (fuel : Nat) (mem : Text) :
    formatItemsWithin (fuel + 1) (c :: mem) =
      if c = chr '%' then
        (readSpec mem).bind fun x => (formatItemsWithin fuel x.2).map (.spec x.1 :: ·)
      else (formatItemsWithin fuel mem).map (.literal c :: ·) := by
  rw [formatItemsWithin, if_neg hc]
  simp only [Option.map_eq_bind]
  rfl

-- A whole format string is read within its length, whatever stands behind it.
theorem formatItems_of_uncut (n : Nat) (fmt : Text) (hlen : fmt.length ≤ n) (hs : 0 ∉ fmt)
    (h : Uncut fmt) :
    ∃ items, ∀ fuel rest, fmt.length < fuel →
      formatItemsWithin fuel (fmt ++ 0 :: rest) = some items := by
  induction n generalizing fmt with
  | zero =>
      obtain rfl := List.eq_nil_of_length_eq_zero (Nat.le_zero.mp hlen)
      refine ⟨[], fun fuel rest hfuel => ?_⟩
      obtain ⟨fuel, rfl⟩ := Nat.exists_eq_succ_of_ne_zero (Nat.ne_of_gt hfuel)
      rw [List.nil_append, formatItemsWithin, if_pos rfl]
  | succ n ih =>
      cases fmt with
      | nil => exact ih [] (Nat.zero_le n) hs h
      | cons c fmt =>
          have hc : c ≠ 0 := fun hzero => hs (by simp [hzero])
          have hs' : 0 ∉ fmt := fun hmem => hs (List.mem_cons_of_mem c hmem)
          have hlen' : fmt.length ≤ n := Nat.le_of_succ_le_succ hlen
          by_cases hpercent : c = chr '%'
          · subst hpercent
            rcases readSpec_cases fmt hs' with ⟨spec, t, hread, hnul, hlt, hplain⟩ | ⟨_, -, -, hcut⟩
            · obtain ⟨items, hitems⟩ := ih t (by omega) hnul (hplain.mp ((uncut_percent fmt).mp h))
              refine ⟨.spec spec :: items, fun fuel rest hfuel => ?_⟩
              rw [List.length_cons] at hfuel
              obtain ⟨fuel, rfl⟩ := Nat.exists_eq_succ_of_ne_zero (show fuel ≠ 0 by omega)
              rw [List.cons_append, formatItems_round hc, if_pos rfl, hread, Option.bind_some,
                hitems fuel rest (by omega), Option.map_some]
            · exact absurd ((uncut_percent fmt).mp h) hcut
          · obtain ⟨items, hitems⟩ := ih fmt hlen' hs' ((uncut_literal hpercent fmt).mp h)
            refine ⟨.literal c :: items, fun fuel rest hfuel => ?_⟩
            rw [List.length_cons] at hfuel
            obtain ⟨fuel, rfl⟩ := Nat.exists_eq_succ_of_ne_zero (show fuel ≠ 0 by omega)
            rw [List.cons_append, formatItems_round hc, if_neg hpercent,
              hitems fuel rest (by omega), Option.map_some]

-- A conversion that is cut short takes the terminator, and the loop is behind it.
theorem formatItems_of_cut (fuel : Nat) (fmt : Text) (hs : 0 ∉ fmt) (h : ¬ Uncut fmt) :
    formatItemsWithin fuel (fmt ++ [0]) = none := by
  induction fuel generalizing fmt with
  | zero => rfl
  | succ fuel ih =>
      cases fmt with
      | nil => exact absurd rfl h
      | cons c fmt =>
          have hc : c ≠ 0 := fun hzero => hs (by simp [hzero])
          have hs' : 0 ∉ fmt := fun hmem => hs (List.mem_cons_of_mem c hmem)
          rw [List.cons_append, formatItems_round hc]
          by_cases hpercent : c = chr '%'
          · subst hpercent
            rw [uncut_percent] at h
            rw [if_pos rfl]
            rcases readSpec_cases fmt hs' with ⟨spec, t, hread, hnul, -, hplain⟩ | ⟨spec, hread, -, -⟩
            · rw [hread, Option.bind_some, ih t hnul (mt hplain.mpr h), Option.map_none]
            · rw [hread, Option.bind_some]
              cases fuel <;> rfl
          · rw [if_neg hpercent, ih fmt hs' (mt (uncut_literal hpercent fmt).mpr h),
              Option.map_none]

theorem readsInside_iff {fmt : Text} (hfmt : 0 ∉ fmt) : ReadsInside fmt ↔ Uncut fmt := by
  constructor
  · rintro ⟨items, hitems, -⟩
    by_contra hcut
    rw [formatItems, formatItems_of_cut _ fmt hfmt hcut] at hitems
    cases hitems
  · intro h
    obtain ⟨items, hall⟩ := formatItems_of_uncut fmt.length fmt (Nat.le_refl _) hfmt h
    have hitems (rest : Text) : formatItems (fmt ++ 0 :: rest) = some items := by
      apply hall
      rw [List.length_append, List.length_cons]
      omega
    refine ⟨items, hitems [], fun rest args => ⟨?_, ?_, ?_⟩⟩
    · rw [serialPrintf, hitems]
      rfl
    · rw [vmemPrintf, hitems]
      rfl
    · rw [pyrionBuiltinPrintf, hitems]
      rfl

theorem readsInside_iff_number : ReadsInside (text "%5lu%%") ↔ Uncut (text "%5lu%%") :=
  readsInside_iff (by decide)

-- The terminator is printed, and then what stands behind it.
theorem percent_reads_on :
    0 ∉ text "100%" ∧ ¬ ReadsInside (text "100%") ∧
      vmemPrintf (text "100%" ++ 0 :: text "key" ++ [0]) [] = some (text "100" ++ 0 :: text "key") := by
  refine ⟨by decide, ?_, by decide⟩
  rintro ⟨items, hitems, -⟩
  have hnone : formatItems (text "100%" ++ [0]) = none := by decide
  rw [hnone] at hitems
  cases hitems

end AosKernel.Io
