import AosKernel.Io.Formatters

namespace AosKernel.Io

-- What is left without the carriage returns that serial_print inserts.
def withoutInserted (l : List Sent) : Text := (l.filter (!·.inserted)).map Sent.char

theorem withoutInserted_append (l m : List Sent) :
    withoutInserted (l ++ m) = withoutInserted l ++ withoutInserted m := by
  rw [withoutInserted, List.filter_append, List.map_append]
  rfl

@[simp] theorem withoutInserted_printc (t : Text) :
    withoutInserted (t.map serialPrintc) = t := by
  induction t with
  | nil => rfl
  | cons c t ih => exact congrArg (c :: ·) ih

@[simp] theorem withoutInserted_print (s : Text) : withoutInserted (serialPrint s) = s := by
  induction s with
  | nil => rfl
  | cons c s ih =>
      rw [serialPrint, List.flatMap_cons, withoutInserted_append]
      split
      · exact congrArg (c :: ·) ih
      · exact congrArg (c :: ·) ih

-- The sign is printed in decimal only.
theorem printExInteger_hex (v : BitVec 64) (width : Int) (zeroPad isSigned caps : Bool) :
    printExInteger v 16 width zeroPad isSigned caps =
      printExInteger v 16 width zeroPad false caps := by
  cases isSigned with
  | false => rfl
  | true =>
      rw [printExInteger, printExInteger, if_pos rfl, ki64ToStr,
        if_neg fun h => absurd h.1 (by decide)]
      rfl

theorem serialConvert_eq (spec : Spec) (args : List Arg) :
    (serialConvert spec args).map (Prod.map withoutInserted id) = vmemConvert spec args := by
  have hinteger (extend : BitVec 32 → BitVec 64) (base : Nat) (isSigned caps : Bool) :
      ((vaInteger extend spec.isLong args).map fun r =>
          ((printExInteger r.1 base spec.width spec.zeroPad isSigned caps).map serialPrintc,
            r.2)).map (Prod.map withoutInserted id) =
        (vaInteger extend spec.isLong args).map fun r =>
          (printExInteger r.1 base spec.width spec.zeroPad isSigned caps, r.2) := by
    rw [Option.map_map]
    congr 1
    funext r
    simp
  unfold serialConvert vmemConvert ioConvert
  cases conversion spec.conv with
  | signed | unsigned | signedCaps | unsignedCaps =>
      simp only [hinteger, List.map_id]
  | hex | hexCaps =>
      simp only [hinteger, List.map_id, printExInteger_hex _ _ _ true]
  | char =>
      rcases args with _ | ⟨_ | _ | _, _⟩ <;> rfl
  | str =>
      rcases args with _ | ⟨_ | _ | _ | s, _⟩
      case cons.str.some => 
        dsimp only
        rw [Option.map_map]
        congr 1
        funext t
        simp
      all_goals rfl
  | bytes =>
      rcases args with _ | ⟨_ | _ | _ | s, _⟩
      case cons.str.some =>
        dsimp only
        split <;> simp
      all_goals rfl
  | pointer =>
      rcases args with _ | ⟨_ | p | _, _⟩
      case cons.long => simp [withoutInserted_append, printExInteger_hex _ _ _ true]
      all_goals rfl
  | double | percent | other => rfl

theorem serialItems_eq (items : List Item) (args : List Arg) :
    (printfItems serialPrintc serialConvert items args).map withoutInserted =
      printfItems id vmemConvert items args := by
  induction items generalizing args with
  | nil => rfl
  | cons item items ih =>
      cases item with
      | literal c =>
          rw [printfItems, printfItems, ← ih, Option.map_map, Option.map_map]
          rfl
      | spec spec =>
          rw [printfItems, printfItems, ← serialConvert_eq]
          cases serialConvert spec args with
          | none => rfl
          | some r =>
              show ((printfItems serialPrintc serialConvert items r.2).bind
                fun rest => some (r.1 ++ rest)).map withoutInserted =
                  (printfItems id vmemConvert items r.2).bind
                    fun rest => some (withoutInserted r.1 ++ rest)
              rw [← ih]
              cases printfItems serialPrintc serialConvert items r.2 with
              | none => rfl
              | some rest => exact congrArg some (withoutInserted_append ..)

-- On the screen and on the serial line the same is printed.
theorem serialPrintf_eq (mem : Text) (args : List Arg) :
    (serialPrintf mem args).map withoutInserted = vmemPrintf mem args := by
  unfold serialPrintf vmemPrintf
  cases formatItems mem with
  | none => rfl
  | some items => exact serialItems_eq items args

-- A conversion that takes no argument.
def Spec.argless (spec : Spec) : Bool :=
  match conversion spec.conv with
  | .percent | .other => true
  | _ => false

-- The argument is one that the conversion takes. There is none for %f.
def Spec.fits (spec : Spec) (arg : Arg) : Bool :=
  match conversion spec.conv, arg with
  | .char, .int _ => true
  | .str, .str none => true
  | .str, .str (some s) => decide (0 ∈ s)
  | .bytes, .str none => true
  | .bytes, .str (some s) => decide (spec.count ≤ s.length)
  | .pointer, .long _ => true
  | .signed, .int _ | .unsigned, .int _ | .signedCaps, .int _ | .unsignedCaps, .int _
  | .hex, .int _ | .hexCaps, .int _ => decide (spec.isLong = 0)
  | .signed, .long _ | .unsigned, .long _ | .signedCaps, .long _ | .unsignedCaps, .long _
  | .hex, .long _ | .hexCaps, .long _ => decide (spec.isLong ≥ 1)
  | _, _ => false

-- The argument list matches the format.
inductive Matches : List Item → List Arg → Prop
  | nil (args) : Matches [] args
  | literal {c items args} : Matches items args → Matches (.literal c :: items) args
  | argless {spec items args} : spec.argless = true → Matches items args →
      Matches (.spec spec :: items) args
  | takes {spec items arg args} : spec.fits arg = true → Matches items args →
      Matches (.spec spec :: items) (arg :: args)

-- Of the characters that %S escapes those with a letter in their code.
def lettered (c : UInt8) : Bool :=
  !kcIsPrintable c && (decide (0x80 ≤ c) || decide (10 ≤ c.toNat % 16))

-- There is a case for the conversion in all of the functions, and it is the same.
def Spec.alike (spec : Spec) (arg : Arg) : Bool :=
  match conversion spec.conv, arg with
  | .signedCaps, _ | .unsignedCaps, _ | .pointer, _ => false
  | .bytes, .str (some s) => !(s.take spec.count).any lettered
  | _, _ => true

def alike : List Item → List Arg → Bool
  | [], _ => true
  | .literal _ :: items, args => alike items args
  | .spec spec :: items, args =>
      if spec.argless then alike items args
      else
        match args with
        | [] => true
        | arg :: args => spec.alike arg && alike items args

-- The characters that pyrion_builtin_printf puts in the place of %I, %D and %U.
def echoed (c : UInt8) : Bool :=
  c == chr 'I' || c == chr 'i' || c == chr 'D' || c == chr 'd' || c == chr 'U' || c == chr 'u'

def lowerHex (c : UInt8) : Bool := decide (chr 'a' ≤ c) && decide (c ≤ chr 'f')

def upperHex (c : UInt8) : UInt8 := if lowerHex c then c - 32 else c

theorem upperHex_cases : ∀ c : Fin 256,
    lowerHex (upperHex (UInt8.ofFin c)) = false ∧
      echoed (upperHex (UInt8.ofFin c)) = echoed (UInt8.ofFin c) ∧
      (upperHex (UInt8.ofFin c) == chr 'x') = (UInt8.ofFin c == chr 'x') ∧
      (upperHex (UInt8.ofFin c) = chr '-' ↔ UInt8.ofFin c = chr '-') := by
  decide +kernel

theorem digitChar_caps : ∀ digit : Fin 16,
    digitChar true digit = upperHex (digitChar false digit) := by
  decide +kernel

-- Whether a character has a letter in its code shows in the digits of it.
theorem any_lowerHex_digits : ∀ c : Fin 256, kcIsPrintable (UInt8.ofFin c) = false →
    (digitsFrom 16 false 64 ((UInt8.ofFin c).toBitVec.signExtend 64).toNat).any lowerHex =
      lettered (UInt8.ofFin c) ∧
    (digitsFrom 16 false 64 ((UInt8.ofFin c).toBitVec.signExtend 64).toNat).length ≤ 16 := by
  decide +kernel

theorem lowerHex_upperHex (c : UInt8) : lowerHex (upperHex c) = false :=
  (upperHex_cases c.toFin).1

theorem echoed_upperHex (c : UInt8) : echoed (upperHex c) = echoed c :=
  (upperHex_cases c.toFin).2.1

theorem beq_x_upperHex (c : UInt8) : (upperHex c == chr 'x') = (c == chr 'x') :=
  (upperHex_cases c.toFin).2.2.1

theorem upperHex_eq_minus (c : UInt8) : upperHex c = chr '-' ↔ c = chr '-' :=
  (upperHex_cases c.toFin).2.2.2

theorem upperHex_of_not {c : UInt8} (h : lowerHex c = false) : upperHex c = c := by
  rw [upperHex, h]
  rfl

theorem digitsFrom_caps (room val : Nat) :
    digitsFrom 16 true room val = (digitsFrom 16 false room val).map upperHex := by
  induction room generalizing val with
  | zero => rfl
  | succ room ih =>
      rw [digitsFrom, digitsFrom, List.map_cons,
        digitChar_caps ⟨val % 16, Nat.mod_lt _ (by decide)⟩]
      split
      · rfl
      · rw [ih]

theorem printExString_caps (str : Text) (width : Int) (zeroPad : Bool) :
    printExString (str.map upperHex) width zeroPad =
      (printExString str width zeroPad).map upperHex := by
  have hpad (padding : Nat) : List.replicate padding (if zeroPad then chr '0' else chr ' ') =
      (List.replicate padding (if zeroPad then chr '0' else chr ' ')).map upperHex := by
    rw [List.map_replicate]
    cases zeroPad <;> rfl
  have hzeros (padding : Nat) :
      List.replicate padding (chr '0') = (List.replicate padding (chr '0')).map upperHex := by
    rw [List.map_replicate]
    rfl
  have hneg : (str.map upperHex).head? = some (chr '-') ↔ str.head? = some (chr '-') := by
    cases str with
    | nil => simp
    | cons c str => simp [upperHex_eq_minus]
  unfold printExString
  simp only [hneg, List.length_map]
  split
  · split
    · rw [List.map_cons, List.map_append, ← hzeros, List.map_tail]
      rfl
    · rw [List.map_append, ← hpad]
  · rfl

theorem digitsToStr_hex (val : Nat) (caps : Bool)
    (h : (digitsFrom 16 caps 64 val).length ≤ 16) :
    digitsToStr false val 64 16 caps = some (digitsFrom 16 caps 64 val).reverse := by
  simp only [digitsToStr, Bool.false_eq_true, if_false, List.append_nil]
  rw [if_neg (by omega)]

-- The digits and the letters behind the backslash.
theorem escape_nonprintable (caps zeroPad : Bool) {c : UInt8} (hc : kcIsPrintable c = false) :
    escape caps zeroPad c = chr '\\' :: chr 'x' ::
      printExString (digitsFrom 16 caps 64 (c.toBitVec.signExtend 64).toNat).reverse 2 zeroPad := by
  have hlen : (digitsFrom 16 caps 64 (c.toBitVec.signExtend 64).toNat).length ≤ 16 := by
    have hfalse := (any_lowerHex_digits c.toFin hc).2
    cases caps with
    | false => exact hfalse
    | true => rwa [digitsFrom_caps, List.length_map]
  rw [escape, hc, if_neg (by decide), printExInteger, if_neg (by decide), ku64ToStr,
    digitsToStr_hex _ _ hlen]

theorem escape_caps (zeroPad : Bool) {c : UInt8} (hc : kcIsPrintable c = false) :
    escape true zeroPad c = (escape false zeroPad c).map upperHex := by
  rw [escape_nonprintable _ _ hc, escape_nonprintable _ _ hc, digitsFrom_caps, ← List.map_reverse,
    printExString_caps]
  rfl

theorem any_printExString (str : Text) (width : Int) (zeroPad : Bool) :
    (printExString str width zeroPad).any lowerHex = str.any lowerHex := by
  have hpad (padding : Nat) (c : UInt8) (hc : lowerHex c = false) :
      (List.replicate padding c).any lowerHex = false := by
    simp [List.any_replicate, hc]
  unfold printExString
  dsimp only
  split
  · split
    · rename_i hneg
      cases str with
      | nil => simp at hneg
      | cons c str =>
          have hc : c = chr '-' := by simpa using (Bool.and_eq_true_iff.mp hneg).2
          rw [hc, List.any_cons, List.any_append, hpad _ _ (by decide)]
          rfl
    · rw [List.any_append, hpad _ _ (by cases zeroPad <;> decide), Bool.false_or]
  · rfl

theorem any_escape (zeroPad : Bool) {c : UInt8} (hc : kcIsPrintable c = false) :
    (escape false zeroPad c).any lowerHex = lettered c := by
  rw [escape_nonprintable _ _ hc, List.any_cons, List.any_cons, any_printExString, List.any_reverse]
  exact (any_lowerHex_digits c.toFin hc).1

-- What pyrion_builtin_printf prints, `p`, beside what vmem_printf prints, `v`,
-- as long as both have taken the same arguments. It may lack an x and have
-- letters in lower case.
structure Drift (v p : Text) : Prop where
  length : p.length ≤ v.length
  echoed : v.countP echoed = p.countP echoed
  x : p.count (chr 'x') ≤ v.count (chr 'x')
  hex : v.countP lowerHex ≤ p.countP lowerHex

theorem Drift.refl (t : Text) : Drift t t :=
  ⟨Nat.le_refl _, rfl, Nat.le_refl _, Nat.le_refl _⟩

theorem Drift.append {v p v' p' : Text} (h : Drift v p) (h' : Drift v' p') :
    Drift (v ++ v') (p ++ p') where
  length := by
    rw [List.length_append, List.length_append]
    exact Nat.add_le_add h.length h'.length
  echoed := by rw [List.countP_append, List.countP_append, h.echoed, h'.echoed]
  x := by
    rw [List.count_append, List.count_append]
    exact Nat.add_le_add h.x h'.x
  hex := by
    rw [List.countP_append, List.countP_append]
    exact Nat.add_le_add h.hex h'.hex

-- The outputs are the same or differ for good.
structure Settled (v p : Text) (same : Bool) : Prop extends Drift v p where
  eq : same = true → v = p
  lost : same = false →
    p.count (chr 'x') < v.count (chr 'x') ∨ v.countP lowerHex < p.countP lowerHex

theorem Settled.refl (t : Text) : Settled t t true :=
  ⟨.refl t, fun _ => rfl, nofun⟩

theorem escape_settled (zeroPad : Bool) (c : UInt8) :
    Settled (escape true zeroPad c) (escape false zeroPad c) (!lettered c) := by
  cases hc : kcIsPrintable c with
  | true =>
      have hlettered : lettered c = false := by rw [lettered, hc]; rfl
      rw [escape, escape, hc, hlettered]
      exact .refl _
  | false =>
      have hany := any_escape zeroPad hc
      have hnone : (escape true zeroPad c).countP lowerHex = 0 := by
        rw [escape_caps zeroPad hc, List.countP_map]
        exact List.countP_eq_zero.mpr fun a _ => by simp [lowerHex_upperHex]
      constructor
      · rw [escape_caps zeroPad hc]
        refine ⟨by rw [List.length_map], ?_, ?_, ?_⟩
        · rw [List.countP_map]
          exact congrArg (List.countP · _) (funext echoed_upperHex)
        · rw [List.count_eq_countP, List.count_eq_countP, List.countP_map]
          exact Nat.le_of_eq (congrArg (List.countP · _) (funext fun a => (beq_x_upperHex a).symm))
        · rw [← escape_caps zeroPad hc, hnone]
          exact Nat.zero_le _
      · intro hsame
        rw [Bool.not_eq_true'] at hsame
        rw [hsame, List.any_eq_false] at hany
        rw [escape_caps zeroPad hc]
        conv_rhs => rw [← List.map_id (escape false zeroPad c)]
        exact List.map_congr_left fun a ha => upperHex_of_not (Bool.eq_false_iff.mpr (hany a ha))
      · intro hsame
        rw [Bool.not_eq_false'] at hsame
        rw [hsame, List.any_eq_true] at hany
        rw [hnone]
        exact .inr (List.countP_pos_iff.mpr hany)

theorem escapes_settled (zeroPad : Bool) (t : Text) :
    Settled (t.flatMap (escape true zeroPad)) (t.flatMap (escape false zeroPad))
      (!t.any lettered) := by
  induction t with
  | nil => exact .refl _
  | cons c t ih =>
      have hc := escape_settled zeroPad c
      rw [List.flatMap_cons, List.flatMap_cons, List.any_cons, Bool.not_or]
      constructor
      · exact hc.toDrift.append ih.toDrift
      · intro hsame
        obtain ⟨hone, hrest⟩ := Bool.and_eq_true_iff.mp hsame
        rw [hc.eq hone, ih.eq hrest]
      · intro hsame
        have hone := hc.toDrift
        have hrest := ih.toDrift
        rw [List.count_append, List.count_append, List.countP_append, List.countP_append]
        rcases Bool.and_eq_false_iff.mp hsame with hlost | hlost
        · have := hc.lost hlost
          have := hrest.x
          have := hrest.hex
          omega
        · have := ih.lost hlost
          have := hone.x
          have := hone.hex
          omega

theorem pointer_settled (t : Text) : Settled (text "0x" ++ t) t false where
  length := by rw [List.length_append]; exact Nat.le_add_left ..
  echoed := by
    rw [List.countP_append, show (text "0x").countP AosKernel.Io.echoed = 0 by decide,
      Nat.zero_add]
  x := by rw [List.count_append]; exact Nat.le_add_left ..
  hex := by
    rw [List.countP_append, show (text "0x").countP lowerHex = 0 by decide, Nat.zero_add]
  eq := nofun
  lost _ := by
    rw [List.count_append, show (text "0x").count (chr 'x') = 1 by decide]
    exact .inl (Nat.lt_add_of_pos_left Nat.one_pos)

-- A conversion of the three functions prints the same, or not, with the same
-- arguments.
theorem convert_settled {spec : Spec} {arg : Arg} (args : List Arg) (hfits : spec.fits arg = true)
    (hconv : conversion spec.conv ≠ .signedCaps ∧ conversion spec.conv ≠ .unsignedCaps) :
    ∃ v p, vmemConvert spec (arg :: args) = some (v, args) ∧
      pyrionConvert spec (arg :: args) = some (p, args) ∧ Settled v p (spec.alike arg) := by
  unfold Spec.fits at hfits
  unfold vmemConvert ioConvert pyrionConvert Spec.alike
  cases hcase : conversion spec.conv with
  | char =>
      rw [hcase] at hfits
      cases arg with
      | int v => exact ⟨_, _, rfl, rfl, .refl _⟩
      | long | str => cases hfits
  | signed | unsigned | hex | hexCaps =>
      rw [hcase] at hfits
      cases arg with
      | int v =>
          have hlong : ¬ spec.isLong ≥ 1 := by simpa using hfits
          simp only [vaInteger, if_neg hlong, Option.map_some, List.map_id]
          exact ⟨_, _, rfl, rfl, .refl _⟩
      | long v =>
          have hlong : spec.isLong ≥ 1 := by simpa using hfits
          simp only [vaInteger, if_pos hlong, Option.map_some, List.map_id]
          exact ⟨_, _, rfl, rfl, .refl _⟩
      | str => cases hfits
  | str =>
      rw [hcase] at hfits
      rcases arg with v | v | _ | s
      case str.none => exact ⟨_, _, rfl, rfl, .refl _⟩
      case str.some =>
        have hmem : 0 ∈ s := by simpa using hfits
        simp only [cString, if_pos hmem, Option.map_some]
        exact ⟨_, _, rfl, rfl, .refl _⟩
      all_goals cases hfits
  | bytes =>
      rw [hcase] at hfits
      rcases arg with v | v | _ | s
      case str.none => exact ⟨_, _, rfl, rfl, .refl _⟩
      case str.some =>
        have hlen : spec.count ≤ s.length := by simpa using hfits
        simp only [if_pos hlen, List.map_id]
        exact ⟨_, _, rfl, rfl, escapes_settled _ _⟩
      all_goals cases hfits
  | pointer =>
      rw [hcase] at hfits
      cases arg with
      | long v =>
          simp only [id_eq, List.map_id]
          exact ⟨_, _, rfl, rfl, pointer_settled _⟩
      | int | str => cases hfits
  | signedCaps => exact absurd hcase hconv.1
  | unsignedCaps => exact absurd hcase hconv.2
  | double | percent | other =>
      rw [hcase] at hfits
      cases arg <;> cases hfits

theorem mem_digitsFrom {base : Nat} {caps : Bool} {room val : Nat} {c : UInt8} (hbase : 0 < base)
    (hc : c ∈ digitsFrom base caps room val) : ∃ digit < base, c = digitChar caps digit := by
  induction room generalizing val with
  | zero => cases hc
  | succ room ih =>
      rw [digitsFrom] at hc
      rcases List.mem_cons.mp hc with rfl | hc
      · exact ⟨_, Nat.mod_lt _ hbase, rfl⟩
      · split at hc
        · cases hc
        · exact ih hc

theorem digit_not_echoed : ∀ digit : Fin 10, echoed (digitChar true digit) = false := by
  decide +kernel

-- Decimal numbers are printed with other characters.
theorem decimal_echoed {neg : Bool} {val : Nat} (hval : val < 2 ^ 64) :
    ∃ str, digitsToStr neg val 64 10 true = some str ∧ str ≠ [] ∧
      ∀ c ∈ str, echoed c = false := by
  have hlen := digitsFrom_length true 64 (show val < 10 ^ (19 + 1) by omega)
  refine ⟨(digitsFrom 10 true 64 val ++ if neg then [chr '-'] else []).reverse, ?_, ?_, ?_⟩
  · have hneg : (if neg then [chr '-'] else []).length ≤ 1 := by cases neg <;> decide
    rw [digitsToStr, if_neg]
    rw [List.length_append]
    omega
  · simp [digitsFrom]
  · intro c hc
    rcases List.mem_append.mp (List.mem_reverse.mp hc) with hc | hc
    · obtain ⟨digit, hdigit, rfl⟩ := mem_digitsFrom (by decide) hc
      exact digit_not_echoed ⟨digit, hdigit⟩
    · cases neg with
      | false => cases hc
      | true => rw [List.mem_singleton.mp hc]; decide

theorem printExString_echoed {str : Text} (hne : str ≠ []) (hstr : ∀ c ∈ str, echoed c = false)
    (width : Int) (zeroPad : Bool) :
    printExString str width zeroPad ≠ [] ∧
      ∀ c ∈ printExString str width zeroPad, echoed c = false := by
  unfold printExString
  dsimp only
  split
  · split
    · refine ⟨nofun, fun c hc => ?_⟩
      rcases List.mem_cons.mp hc with rfl | hc
      · decide
      rcases List.mem_append.mp hc with hc | hc
      · rw [List.eq_of_mem_replicate hc]
        decide
      · exact hstr c (List.mem_of_mem_tail hc)
    · refine ⟨by simp [hne], fun c hc => ?_⟩
      rcases List.mem_append.mp hc with hc | hc
      · rw [List.eq_of_mem_replicate hc]
        cases zeroPad <;> decide
      · exact hstr c hc
  · exact ⟨hne, hstr⟩

theorem printExInteger_echoed (v : BitVec 64) (width : Int) (zeroPad isSigned : Bool) :
    printExInteger v 10 width zeroPad isSigned true ≠ [] ∧
      ∀ c ∈ printExInteger v 10 width zeroPad isSigned true, echoed c = false := by
  have hstr : ∃ str, (if isSigned then ki64ToStr v 64 10 true else ku64ToStr v 64 10 true) =
      some str ∧ str ≠ [] ∧ ∀ c ∈ str, echoed c = false := by
    split
    · unfold ki64ToStr
      split
      · have hlo := BitVec.le_toInt v
        exact decimal_echoed (by omega)
      · exact decimal_echoed v.isLt
    · exact decimal_echoed v.isLt
  obtain ⟨str, hsome, hne, hnone⟩ := hstr
  rw [printExInteger, hsome]
  exact printExString_echoed hne hnone width zeroPad

theorem capsDecimal_conv : ∀ c : Fin 256, conversion (UInt8.ofFin c) = .signedCaps ∨
    conversion (UInt8.ofFin c) = .unsignedCaps → echoed (UInt8.ofFin c) = true := by
  decide +kernel

-- %I, %D and %U are decimal in two of the functions, and are echoed by the third,
-- which takes no argument for them.
theorem convert_capsDecimal {spec : Spec} {arg : Arg} (args : List Arg)
    (hfits : spec.fits arg = true)
    (hconv : conversion spec.conv = .signedCaps ∨ conversion spec.conv = .unsignedCaps) :
    ∃ v, vmemConvert spec (arg :: args) = some (v, args) ∧ v ≠ [] ∧
      (∀ c ∈ v, echoed c = false) ∧
      pyrionConvert spec (arg :: args) = some ([spec.conv], arg :: args) := by
  unfold Spec.fits at hfits
  unfold vmemConvert ioConvert pyrionConvert
  rcases hconv with hcase | hcase
  all_goals
    rw [hcase] at hfits ⊢
    cases arg with
    | int v =>
        have hlong : ¬ spec.isLong ≥ 1 := by simpa using hfits
        simp only [vaInteger, if_neg hlong, Option.map_some, List.map_id]
        exact ⟨_, rfl, (printExInteger_echoed ..).1, (printExInteger_echoed ..).2, trivial⟩
    | long v =>
        have hlong : spec.isLong ≥ 1 := by simpa using hfits
        simp only [vaInteger, if_pos hlong, Option.map_some, List.map_id]
        exact ⟨_, rfl, (printExInteger_echoed ..).1, (printExInteger_echoed ..).2, trivial⟩
    | str => cases hfits

theorem convert_argless {spec : Spec} (h : spec.argless = true) (args : List Arg) :
    ∃ c, vmemConvert spec args = some ([c], args) ∧ pyrionConvert spec args = some ([c], args) := by
  unfold Spec.argless at h
  unfold vmemConvert ioConvert pyrionConvert
  split at h
  · rename_i hcase
    rw [hcase]
    exact ⟨_, rfl, rfl⟩
  · rename_i hcase
    rw [hcase]
    exact ⟨_, rfl, rfl⟩
  · cases h

theorem fits_not_argless {spec : Spec} {arg : Arg} (h : spec.fits arg = true) :
    spec.argless = false := by
  unfold Spec.fits at h
  unfold Spec.argless
  split
  · rename_i hcase
    rw [hcase] at h
    cases arg <;> cases h
  · rename_i hcase
    rw [hcase] at h
    cases arg <;> cases h
  · rfl

theorem alike_argless {spec : Spec} (h : spec.argless = true) (items : List Item)
    (args : List Arg) : alike (.spec spec :: items) args = alike items args :=
  if_pos h

theorem alike_takes {spec : Spec} (h : spec.argless = false) (items : List Item) (arg : Arg)
    (args : List Arg) :
    alike (.spec spec :: items) (arg :: args) = (spec.alike arg && alike items args) :=
  if_neg (by rw [h]; decide)

theorem printfItems_literal {α : Type} (printc : UInt8 → α)
    (convert : Spec → List Arg → Option (List α × List Arg)) (c : UInt8) (items : List Item)
    (args : List Arg) :
    printfItems printc convert (.literal c :: items) args =
      (printfItems printc convert items args).map (printc c :: ·) :=
  rfl

theorem printfItems_spec {α : Type} {printc : UInt8 → α}
    {convert : Spec → List Arg → Option (List α × List Arg)} {spec : Spec} {args rest : List Arg}
    {out : List α} (h : convert spec args = some (out, rest)) (items : List Item) :
    printfItems printc convert (.spec spec :: items) args =
      (printfItems printc convert items rest).map (out ++ ·) := by
  rw [printfItems, h]
  show (printfItems printc convert items rest).bind (fun t => some (out ++ t)) = _
  cases printfItems printc convert items rest <;> rfl

-- The screen has something for every argument list that matches.
theorem vmemItems_some {items : List Item} {args : List Arg} (h : Matches items args) :
    ∃ out, printfItems id vmemConvert items args = some out := by
  induction h with
  | nil => exact ⟨[], rfl⟩
  | literal _ ih =>
      obtain ⟨out, hout⟩ := ih
      exact ⟨_, by rw [printfItems_literal, hout, Option.map_some]⟩
  | argless hargless _ ih =>
      obtain ⟨out, hout⟩ := ih
      obtain ⟨c, hv, -⟩ := convert_argless hargless _
      exact ⟨_, by rw [printfItems_spec hv, hout, Option.map_some]⟩
  | @takes spec items arg args hfits _ ih =>
      obtain ⟨out, hout⟩ := ih
      by_cases hconv : conversion spec.conv = .signedCaps ∨ conversion spec.conv = .unsignedCaps
      · obtain ⟨v, hv, -⟩ := convert_capsDecimal args hfits hconv
        exact ⟨_, by rw [printfItems_spec hv, hout, Option.map_some]⟩
      · obtain ⟨v, p, hv, -⟩ := convert_settled args hfits (not_or.mp hconv)
        exact ⟨_, by rw [printfItems_spec hv, hout, Option.map_some]⟩

-- Where all conversions are alike the context is drawn what the screen shows.
theorem pyrionItems_eq {items : List Item} {args : List Arg} (h : Matches items args)
    (halike : alike items args = true) :
    printfItems id pyrionConvert items args = printfItems id vmemConvert items args := by
  induction h with
  | nil => rfl
  | literal _ ih => rw [printfItems_literal, printfItems_literal, ih halike]
  | argless hargless _ ih =>
      rw [alike_argless hargless] at halike
      obtain ⟨c, hv, hp⟩ := convert_argless hargless _
      rw [printfItems_spec hv, printfItems_spec hp, ih halike]
  | @takes spec items arg args hfits _ ih =>
      rw [alike_takes (fits_not_argless hfits)] at halike
      obtain ⟨hone, hrest⟩ := Bool.and_eq_true_iff.mp halike
      have hconv : conversion spec.conv ≠ .signedCaps ∧ conversion spec.conv ≠ .unsignedCaps := by
        constructor
        · intro hcase
          simp [Spec.alike, hcase] at hone
        · intro hcase
          simp [Spec.alike, hcase] at hone
      obtain ⟨v, p, hv, hp, hsettled⟩ := convert_settled args hfits hconv
      rw [printfItems_spec hv, printfItems_spec hp, ih hrest, hsettled.eq hone]

-- Where a letter is echoed and decimals are printed the outputs part, whatever
-- has been printed before.
theorem echoed_parts {a b out v p : Text} {c : UInt8} (h : Drift a b) (hne : out ≠ [])
    (hout : ∀ d ∈ out, echoed d = false) (hc : echoed c = true) :
    a ++ (out ++ v) ≠ b ++ (c :: p) := by
  intro heq
  have hcount := h.echoed
  have htake := congrArg (List.take (b.length + 1)) heq
  have hright : (b ++ (c :: p)).take (b.length + 1) = b ++ [c] := by
    rw [List.take_length_add_append]
    rfl
  rw [hright] at htake
  have hone : (b ++ [c]).countP echoed = b.countP echoed + 1 := by
    rw [List.countP_append, List.countP_singleton, if_pos hc]
  rcases Nat.lt_or_ge b.length a.length with hlt | hge
  · rw [List.take_append_of_le_length hlt] at htake
    have hle := (List.take_sublist (b.length + 1) a).countP_le (p := echoed)
    rw [htake] at hle
    omega
  · have hlen := Nat.le_antisymm h.length hge
    cases out with
    | nil => exact hne rfl
    | cons d out =>
        rw [hlen, List.take_length_add_append] at htake
        have hd : (a ++ [d]).countP echoed = a.countP echoed := by
          rw [List.countP_append, List.countP_singleton, if_neg (by simp [hout d List.mem_cons_self]),
            Nat.add_zero]
        have hsame := congrArg (List.countP echoed) htake
        rw [hone] at hsame
        exact absurd (hd.symm.trans hsame) (by omega)

-- What both have printed drops out of the comparison.
theorem same_step {a b t v p : Text} {q : Prop} (hdrift : Drift a b)
    (heq : a ++ (t ++ v) = b ++ (t ++ p))
    (hrest : Drift (a ++ t) (b ++ t) → (a ++ t) ++ v = (b ++ t) ++ p →
      q ∧ (a ++ t).count (chr 'x') = (b ++ t).count (chr 'x') ∧
        (a ++ t).countP lowerHex = (b ++ t).countP lowerHex) :
    q ∧ a.count (chr 'x') = b.count (chr 'x') ∧ a.countP lowerHex = b.countP lowerHex := by
  have heq' : (a ++ t) ++ v = (b ++ t) ++ p := by
    rw [List.append_assoc, List.append_assoc, heq]
  obtain ⟨hq, hx, hhex⟩ := hrest (hdrift.append (.refl t)) heq'
  rw [List.count_append, List.count_append] at hx
  rw [List.countP_append, List.countP_append] at hhex
  exact ⟨hq, Nat.add_right_cancel hx, Nat.add_right_cancel hhex⟩

theorem printed_behind {conv : Spec → List Arg → Option (Text × List Arg)} {spec : Spec}
    {items : List Item} {args rest : List Arg} {out v : Text}
    (hconv : conv spec args = some (out, rest))
    (h : printfItems id conv (.spec spec :: items) args = some v) :
    ∃ v', printfItems id conv items rest = some v' ∧ v = out ++ v' := by
  rw [printfItems_spec hconv] at h
  obtain ⟨v', hv', rfl⟩ := Option.map_eq_some_iff.mp h
  exact ⟨v', hv', rfl⟩

-- Outputs that end up the same were so after each conversion.
theorem alike_of_eq {items : List Item} {args : List Arg} (h : Matches items args)
    {a b v p : Text} (hdrift : Drift a b) (hv : printfItems id vmemConvert items args = some v)
    (hp : printfItems id pyrionConvert items args = some p) (heq : a ++ v = b ++ p) :
    alike items args = true ∧ a.count (chr 'x') = b.count (chr 'x') ∧
      a.countP lowerHex = b.countP lowerHex := by
  induction h generalizing a b v p with
  | nil =>
      cases hv
      cases hp
      rw [List.append_nil, List.append_nil] at heq
      rw [heq]
      exact ⟨rfl, rfl, rfl⟩
  | @literal c _ _ _ ih =>
      obtain ⟨v, hv', rfl⟩ := Option.map_eq_some_iff.mp hv
      obtain ⟨p, hp', rfl⟩ := Option.map_eq_some_iff.mp hp
      exact same_step (t := [c]) hdrift heq fun hdrift heq => ih hdrift hv' hp' heq
  | argless hargless _ ih =>
      obtain ⟨c, hvc, hpc⟩ := convert_argless hargless _
      obtain ⟨v, hv', rfl⟩ := printed_behind hvc hv
      obtain ⟨p, hp', rfl⟩ := printed_behind hpc hp
      rw [alike_argless hargless]
      exact same_step hdrift heq fun hdrift heq => ih hdrift hv' hp' heq
  | @takes spec items arg args hfits _ ih =>
      by_cases hconv : conversion spec.conv = .signedCaps ∨ conversion spec.conv = .unsignedCaps
      · obtain ⟨out, hvc, hne, hout, hpc⟩ := convert_capsDecimal args hfits hconv
        obtain ⟨v, hv', rfl⟩ := printed_behind hvc hv
        obtain ⟨p, hp', rfl⟩ := printed_behind hpc hp
        exact absurd heq (echoed_parts hdrift hne hout (capsDecimal_conv spec.conv.toFin hconv))
      · obtain ⟨vout, pout, hvc, hpc, hsettled⟩ := convert_settled args hfits (not_or.mp hconv)
        obtain ⟨v, hv', rfl⟩ := printed_behind hvc hv
        obtain ⟨p, hp', rfl⟩ := printed_behind hpc hp
        rw [← List.append_assoc, ← List.append_assoc] at heq
        obtain ⟨halike, hx, hhex⟩ := ih (hdrift.append hsettled.toDrift) hv' hp' heq
        rw [List.count_append, List.count_append] at hx
        rw [List.countP_append, List.countP_append] at hhex
        have hax := hdrift.x
        have hahex := hdrift.hex
        have hox := hsettled.x
        have hohex := hsettled.hex
        have hone : spec.alike arg = true := by
          cases hone : spec.alike arg with
          | true => rfl
          | false =>
              have := hsettled.lost hone
              omega
        rw [alike_takes (fits_not_argless hfits), hone, halike]
        exact ⟨rfl, by omega, by omega⟩

-- The three functions print the same, up to the inserted carriage returns.
def PrintAlike (mem : Text) (args : List Arg) : Prop :=
  ∃ out, vmemPrintf mem args = some out ∧
    (serialPrintf mem args).map withoutInserted = some out ∧
    pyrionBuiltinPrintf mem args = some out

-- For a format and arguments that match it they do exactly where no conversion
-- is %p, %I, %D or %U, and %S escapes no character with a letter in its code.
theorem printAlike_iff {mem : Text} {items : List Item} {args : List Arg}
    (hread : formatItems mem = some items) (hargs : Matches items args) :
    PrintAlike mem args ↔ alike items args = true := by
  obtain ⟨v, hv⟩ := vmemItems_some hargs
  have hvmem : vmemPrintf mem args = some v := by
    rw [vmemPrintf, hread]
    exact hv
  have hpyrion : pyrionBuiltinPrintf mem args = printfItems id pyrionConvert items args := by
    rw [pyrionBuiltinPrintf, hread]
    rfl
  constructor
  · rintro ⟨out, hout, -, hp⟩
    rw [hvmem] at hout
    cases hout
    rw [hpyrion] at hp
    exact (alike_of_eq hargs (.refl []) hv hp rfl).1
  · intro halike
    refine ⟨v, hvmem, by rw [serialPrintf_eq, hvmem], ?_⟩
    rw [hpyrion, pyrionItems_eq hargs halike, hv]

theorem printAlike_number : PrintAlike (text "n=%04d\n" ++ [0]) [.int 7] := by
  have hread : formatItems (text "n=%04d\n" ++ [0]) = some
      [.literal (chr 'n'), .literal (chr '='), .spec ⟨true, 4, 0, 0, chr 'd'⟩,
        .literal (chr '\n')] := by
    decide +kernel
  have hfits : (⟨true, 4, 0, 0, chr 'd'⟩ : Spec).fits (.int 7) = true := by decide +kernel
  exact (printAlike_iff hread (.literal (.literal (.takes hfits (.literal (.nil [])))))).mpr
    (by decide +kernel)

-- A pointer is drawn without the 0x in front of it.
theorem pointer_not_alike :
    (∃ items, formatItems (text "%p" ++ [0]) = some items ∧ Matches items [.long 0x1000]) ∧
      ¬ PrintAlike (text "%p" ++ [0]) [.long 0x1000] := by
  refine ⟨⟨[.spec ⟨false, 0, 0, 0, chr 'p'⟩], by decide +kernel,
    .takes (by decide +kernel) (.nil [])⟩, ?_⟩
  rintro ⟨out, hv, -, hp⟩
  have hsame := hv.trans hp.symm
  revert hsame
  decide +kernel

end AosKernel.Io
