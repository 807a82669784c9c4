import Arishem.Config.IniRoundTrip
import Mathlib.Data.Nat.Digits.Lemmas

/-!
# Lists of numbers in a configuration

A knob that is a list is given as numbers with commas between them. A list that is printed so, in a
line of a configuration, is read back.
-/

namespace Arishem

namespace Ini

/-! ## The library functions -/

/-- All tokens of `strtok`, with the current one in reverse. -/
def strtok (delim : Char) : List Char → List Char → List (List Char)
  | current, [] => if current = [] then [] else [current.reverse]
  | current, c :: s =>
    if c = delim then
      if current = [] then strtok delim [] s else current.reverse :: strtok delim [] s
    else strtok delim (c :: current) s

/-- The digit of a character in a base. -/
def digitOf (base : ℕ) (c : Char) : Option ℕ :=
  let d :=
    if '0' ≤ c ∧ c ≤ '9' then c.toNat - 48
    else if 'a' ≤ c ∧ c ≤ 'z' then c.toNat - 87
    else if 'A' ≤ c ∧ c ≤ 'Z' then c.toNat - 55
    else base
  if d < base then some d else none

/-- The number of the digits at the start. -/
def digitsValue (base : ℕ) : ℕ → List Char → ℕ
  | n, [] => n
  | n, c :: s =>
    match digitOf base c with
    | some d => digitsValue base (n * base + d) s
    | none => n

/-- `strtol` with base 0: the base is taken from the digits, and the value is clamped. -/
def strtol (s : List Char) : ℤ :=
  let s := lskip s
  let negative := s.head? = some '-'
  let s := if s.head? = some '-' ∨ s.head? = some '+' then s.drop 1 else s
  let hex := s.head? = some '0' ∧ (s[1]? = some 'x' ∨ s[1]? = some 'X') ∧
    (s[2]?.bind (digitOf 16)).isSome
  let n :=
    if hex then digitsValue 16 0 (s.drop 2)
    else if s.head? = some '0' then digitsValue 8 0 s
    else digitsValue 10 0 s
  if negative then max (-(n : ℤ)) (-2 ^ 63) else min (n : ℤ) (2 ^ 63 - 1)

/-- `get_array_int`. -/
def getArrayInt (str : List Char) : List Int32 := (strtok ',' [] str).map fun pch => .ofInt (strtol pch)

/-! ## Printing -/

/-- A number in decimal digits. -/
def printNat (n : ℕ) : List Char :=
  if n = 0 then ['0'] else (Nat.digits 10 n).reverse.map fun d => .ofNat (48 + d)

def printInt (x : Int32) : List Char :=
  if x.toInt < 0 then '-' :: printNat x.toInt.natAbs else printNat x.toInt.natAbs

/-- A list of numbers with commas between them. -/
def printList (xs : List Int32) : List Char := [','].intercalate (xs.map printInt)

/-- The characters of a printed list. -/
def numeral (c : Char) : Bool := c == '-' || c == ',' || '0' ≤ c && c ≤ '9'

section
variable {d n : ℕ} {c : Char} {s : List Char} {x : Int32} {xs : List Int32}

theorem digitOf_ofNat (hd : d < 10) : digitOf 10 (.ofNat (48 + d)) = some d := by
  have hall : ∀ d < 10, digitOf 10 (.ofNat (48 + d)) = some d := by decide
  exact hall d hd

theorem digitsValue_digits {l : List ℕ} (hl : ∀ d ∈ l, d < 10) (n : ℕ) :
    digitsValue 10 n (l.map fun d => .ofNat (48 + d)) = l.foldl (fun n d => n * 10 + d) n := by
  induction l generalizing n with
  | nil => rfl
  | cons d l ih =>
    obtain ⟨hd, hl⟩ := List.forall_mem_cons.1 hl
    rw [List.map_cons, digitsValue, digitOf_ofNat hd, List.foldl_cons]
    exact ih hl _

theorem foldl_digits (n : ℕ) : (Nat.digits 10 n).reverse.foldl (fun n d => n * 10 + d) 0 = n := by
  rw [List.foldl_reverse]
  conv_rhs => rw [← Nat.ofDigits_digits 10 n, Nat.ofDigits_eq_foldr]
  congr 1
  funext d n
  simp [Nat.mul_comm, Nat.add_comm]

/-- A digit is no white space, no sign, no comma and nothing of a comment. -/
theorem numeral_digit (hd : d < 10) : numeral (.ofNat (48 + d)) = true ∧
    Char.ofNat (48 + d) ≠ ',' ∧ Char.ofNat (48 + d) ≠ '-' ∧ Char.ofNat (48 + d) ≠ '+' ∧
    (d ≠ 0 → Char.ofNat (48 + d) ≠ '0') := by
  have hall : ∀ d < 10, numeral (.ofNat (48 + d)) = true ∧
      Char.ofNat (48 + d) ≠ ',' ∧ Char.ofNat (48 + d) ≠ '-' ∧ Char.ofNat (48 + d) ≠ '+' ∧
      (d ≠ 0 → Char.ofNat (48 + d) ≠ '0') := by decide
  exact hall d hd

/-- The digits of a number are digits, and the first one is not 0 but for the number 0. -/
theorem printNat_cases (n : ℕ) : n = 0 ∧ printNat n = ['0'] ∨
    ∃ d l, d < 10 ∧ d ≠ 0 ∧ (∀ d ∈ l, d < 10) ∧
      printNat n = (d :: l).map (fun d => .ofNat (48 + d)) ∧
      (d :: l).foldl (fun n d => n * 10 + d) 0 = n := by
  rcases Nat.eq_zero_or_pos n with rfl | hpos
  · exact .inl ⟨rfl, rfl⟩
  · right
    have hfold := foldl_digits n
    have hlt : ∀ d ∈ (Nat.digits 10 n).reverse, d < 10 := fun d hd =>
      Nat.digits_lt_base (by decide) (List.mem_reverse.1 hd)
    have hne : Nat.digits 10 n ≠ [] := Nat.digits_ne_nil_iff_ne_zero.2 hpos.ne'
    have hlast := Nat.getLast_digit_ne_zero 10 hpos.ne'
    have hprint : printNat n = (Nat.digits 10 n).reverse.map fun d => .ofNat (48 + d) :=
      if_neg hpos.ne'
    have hhead := List.head?_reverse (l := Nat.digits 10 n)
    rw [List.getLast?_eq_getLast_of_ne_nil hne] at hhead
    generalize (Nat.digits 10 n).reverse = l at hfold hlt hprint hhead
    cases l with
    | nil => exact absurd hhead (by simp)
    | cons d l =>
      obtain ⟨hd, hl⟩ := List.forall_mem_cons.1 hlt
      obtain rfl := Option.some.inj hhead
      exact ⟨_, l, hd, hlast, hl, hprint, hfold⟩

/-- A numeral is no white space, and nothing of a comment. -/
theorem numeral_clean (h : numeral c = true) : isSpace c = false ∧ c ≠ ';' ∧ c ≠ '\n' ∧ c ≠ '\x00' := by
  have hge : 44 ≤ c.toNat ∧ c.toNat ≤ 57 := by
    rw [numeral, Bool.or_eq_true, Bool.or_eq_true, Bool.and_eq_true] at h
    rcases h with (h | h) | ⟨h, h'⟩
    · obtain rfl : c = '-' := by simpa using h
      decide
    · obtain rfl : c = ',' := by simpa using h
      decide
    · have hzero : ('0').toNat ≤ c.toNat := Char.le_def.1 (of_decide_eq_true h)
      have hnine : c.toNat ≤ ('9').toNat := Char.le_def.1 (of_decide_eq_true h')
      have h48 : ('0').toNat = 48 := rfl
      have h57 : ('9').toNat = 57 := rfl
      omega
  refine ⟨?_, ?_, ?_, ?_⟩
  · rw [isSpace, Bool.or_eq_false_iff]
    refine ⟨beq_eq_false_iff_ne.2 ?_, ?_⟩
    · rintro rfl
      exact absurd hge.1 (by decide)
    · rw [Bool.and_eq_false_iff]
      exact .inr (decide_eq_false (by omega))
  all_goals
    rintro rfl
    exact absurd hge (by decide)

/-- The digits of a number read as the number. -/
theorem printNat_value (n : ℕ) : ∃ c s, printNat n = c :: s ∧ numeral c = true ∧ c ≠ '-' ∧ c ≠ '+' ∧
    (if c = '0' ∧ (s[0]? = some 'x' ∨ s[0]? = some 'X') ∧ (s[1]?.bind (digitOf 16)).isSome
      then digitsValue 16 0 (s.drop 1)
      else if c = '0' then digitsValue 8 0 (c :: s) else digitsValue 10 0 (c :: s)) = n := by
  rcases printNat_cases n with ⟨rfl, hprint⟩ | ⟨d, l, hd, hne, hl, hprint, hfold⟩
  · exact ⟨'0', [], hprint, by decide, by decide, by decide, by decide⟩
  · obtain ⟨hnumeral, -, hminus, hplus, hzero⟩ := numeral_digit hd
    refine ⟨_, _, hprint, hnumeral, hminus, hplus, ?_⟩
    have hzero := hzero hne
    rw [if_neg fun h => hzero h.1, if_neg hzero]
    exact (digitsValue_digits (List.forall_mem_cons.2 ⟨hd, hl⟩) 0).trans hfold

/-- A printed number is read back. -/
theorem strtol_printInt (x : Int32) : strtol (printInt x) = x.toInt := by
  have hlow := x.le_toInt
  have hhigh := x.toInt_lt
  obtain ⟨c, s, hprint, hnumeral, hminus, hplus, hvalue⟩ := printNat_value x.toInt.natAbs
  have hspace := (numeral_clean hnumeral).1
  rw [printInt, strtol, hprint]
  by_cases hneg : x.toInt < 0
  · rw [if_pos hneg]
    have hskip : lskip ('-' :: c :: s) = '-' :: c :: s :=
      lskip_eq_self_iff.2 fun d hd => Option.some.inj hd ▸ rfl
    rw [hskip]
    simp only [List.head?_cons, List.drop_succ_cons, List.drop_zero, Option.some.injEq, true_or,
      if_true, List.getElem?_cons_succ]
    rw [hvalue]
    omega
  · rw [if_neg hneg]
    have hskip : lskip (c :: s) = c :: s :=
      lskip_eq_self_iff.2 fun d hd => Option.some.inj hd ▸ hspace
    rw [hskip]
    simp only [List.head?_cons, List.drop_succ_cons, Option.some.injEq, hminus, hplus,
      or_self, if_false, List.getElem?_cons_succ]
    rw [hvalue]
    omega

theorem printInt_numeral (x : Int32) : printInt x ≠ [] ∧ ',' ∉ printInt x ∧
    ∀ c ∈ printInt x, numeral c = true := by
  have hnat : printNat x.toInt.natAbs ≠ [] ∧ ',' ∉ printNat x.toInt.natAbs ∧
      ∀ c ∈ printNat x.toInt.natAbs, numeral c = true := by
    rcases printNat_cases x.toInt.natAbs with ⟨-, hprint⟩ | ⟨d, l, hd, -, hl, hprint, -⟩
    · rw [hprint]
      refine ⟨List.cons_ne_nil _ _, fun hmem => ?_, fun c hc => ?_⟩
      · exact absurd (List.mem_singleton.1 hmem) (by decide)
      · obtain rfl := List.mem_singleton.1 hc
        rfl
    · have hall : ∀ d' ∈ d :: l, d' < 10 := List.forall_mem_cons.2 ⟨hd, hl⟩
      rw [hprint]
      refine ⟨by simp, fun hmem => ?_, fun c hc => ?_⟩
      · obtain ⟨d', hd', heq⟩ := List.mem_map.1 hmem
        exact (numeral_digit (hall d' hd')).2.1 heq
      · obtain ⟨d', hd', rfl⟩ := List.mem_map.1 hc
        exact (numeral_digit (hall d' hd')).1
  rw [printInt]
  split
  · refine ⟨by simp, fun hmem => ?_, fun c hc => ?_⟩
    · exact hnat.2.1 ((List.mem_cons.1 hmem).resolve_left (by decide))
    · rcases List.mem_cons.1 hc with rfl | hc
      · rfl
      · exact hnat.2.2 c hc
  · exact hnat

/-! ## Lists -/

/-- A token ends at a comma, or at the end. -/
theorem strtok_token {t current : List Char} (ht : ',' ∉ t) (hne : current.reverse ++ t ≠ [])
    (rest : List Char) : strtok ',' current (t ++ ',' :: rest) =
      (current.reverse ++ t) :: strtok ',' [] rest ∧
    strtok ',' current t = [current.reverse ++ t] := by
  induction t generalizing current with
  | nil =>
    rw [List.append_nil] at hne ⊢
    have hcurrent : current ≠ [] := fun hnil => hne (by rw [hnil]; rfl)
    refine ⟨?_, ?_⟩
    · rw [List.nil_append, strtok, if_pos rfl, if_neg hcurrent]
    · rw [strtok, if_neg hcurrent]
  | cons c t ih =>
    have hc : c ≠ ',' := fun he => ht (he ▸ List.mem_cons_self ..)
    have ht' : ',' ∉ t := fun hmem => ht (List.mem_cons_of_mem _ hmem)
    have happend : (c :: current).reverse ++ t = current.reverse ++ c :: t := by simp
    rw [List.cons_append, strtok, if_neg hc, strtok, if_neg hc, ← happend]
    exact ih ht' (by simp)

theorem printList_cons (x y : Int32) (xs : List Int32) :
    printList (x :: y :: xs) = printInt x ++ ',' :: printList (y :: xs) := by
  simp [printList, List.intercalate]

/-- A printed list is read back. -/
theorem getArrayInt_printList (xs : List Int32) : getArrayInt (printList xs) = xs := by
  have htokens : strtok ',' [] (printList xs) = xs.map printInt := by
    induction xs with
    | nil => rfl
    | cons x xs ih =>
      obtain ⟨hne, hcomma, -⟩ := printInt_numeral x
      cases xs with
      | nil =>
        have hprint : printList [x] = printInt x := by simp [printList, List.intercalate]
        rw [hprint]
        have hne' : ([] : List Char).reverse ++ printInt x ≠ [] := hne
        exact (strtok_token hcomma hne' []).2
      | cons y xs =>
        have hne' : ([] : List Char).reverse ++ printInt x ≠ [] := hne
        rw [printList_cons, (strtok_token hcomma hne' _).1, ih]
        rfl
  rw [getArrayInt, htokens, List.map_map]
  conv_rhs => rw [← List.map_id xs]
  refine List.map_congr_left fun x _ => ?_
  rw [Function.comp_apply, strtol_printInt, Int32.ofInt_toInt]
  rfl

theorem printList_numeral (xs : List Int32) : ∀ c ∈ printList xs, numeral c = true := by
  induction xs with
  | nil => exact fun c hc => absurd hc List.not_mem_nil
  | cons x xs ih =>
    obtain ⟨-, -, hx⟩ := printInt_numeral x
    cases xs with
    | nil =>
      have hprint : printList [x] = printInt x := by simp [printList, List.intercalate]
      rwa [hprint]
    | cons y xs =>
      rw [printList_cons]
      intro c hc
      rcases List.mem_append.1 hc with hc | hc
      · exact hx c hc
      rcases List.mem_cons.1 hc with rfl | hc
      · rfl
      · exact ih c hc

/-- Numerals are a clean value without a comment. -/
theorem cleanValue_numerals (h : ∀ c ∈ s, numeral c = true) (w : Bool) :
    CleanValue s ∧ Uncommented w s ∧ '\x00' ∉ s := by
  have hspace : ∀ c ∈ s, isSpace c = false := fun c hc => (numeral_clean (h c hc)).1
  refine ⟨⟨?_, ?_, fun hmem => ?_⟩, ?_, fun hmem => ?_⟩
  · exact lskip_eq_self_iff.2 fun c hc => hspace c (List.mem_of_head? hc)
  · rw [rstrip, List.rdropWhile_eq_self_iff]
    intro hne
    rw [hspace _ (List.getLast_mem hne)]
    exact Bool.false_ne_true
  · exact (numeral_clean (h _ hmem)).2.2.1 rfl
  · clear hspace
    induction s generalizing w with
    | nil => trivial
    | cons c s ih =>
      obtain ⟨hc, hs⟩ := List.forall_mem_cons.1 h
      exact ⟨fun hand => (numeral_clean hc).2.1 hand.2, ih hs _⟩
  · exact (numeral_clean (h _ hmem)).2.2.2 rfl

end

/-- A name that can stand in a line before a list. -/
structure ListName (name : List Char) (xs : List Int32) : Prop where
  clean : CleanName name
  last : rstrip name = name
  uncommented : Uncommented false name
  mark : name.head? ≠ bom.head?
  null : '\x00' ∉ name
  length_lt : name.length + (printList xs).length + 2 < iniMaxLine

/-- A configuration that gives knobs as lists of numbers reads back as these lists, whatever their signs
and, as long as their lines fit the buffer, whatever their lengths. -/
theorem knobLists_roundTrip (knobs : List (List Char × List Int32))
    (h : ∀ knob ∈ knobs, ListName knob.1 knob.2) :
    parseStream (fun user _ name value => (user ++ [(name, getArrayInt value)], true)) []
      (Document.mk (knobs.map fun knob => (knob.1, printList knob.2)) []).print = (knobs, 0) := by
  have hd : (Document.mk (knobs.map fun knob => (knob.1, printList knob.2)) []).Printable := by
    refine ⟨fun pair hpair => ?_, fun s hs => absurd hs List.not_mem_nil⟩
    obtain ⟨knob, hknob, rfl⟩ := List.mem_map.1 hpair
    obtain ⟨hclean, huncommented, hnull⟩ := cleanValue_numerals (printList_numeral knob.2) false
    have hname := h knob hknob
    exact ⟨hname.clean, hname.last, hclean, hname.uncommented, huncommented, hname.mark,
      ⟨hname.null, hnull⟩, hname.length_lt⟩
  have hfold : ∀ (ks : List (List Char × List Int32)) (user : List (List Char × List Int32)),
      (ks.map fun knob => (([] : List Char), knob.1, printList knob.2)).foldl
        (fun user c => user ++ [(c.2.1, getArrayInt c.2.2)]) user = user ++ ks := by
    intro ks
    induction ks with
    | nil => simp
    | cons knob ks ih =>
      intro user
      rw [List.map_cons, List.foldl_cons, ih]
      simp [getArrayInt_printList]
  have hcalls : (Document.mk (knobs.map fun knob => (knob.1, printList knob.2)) []).calls =
      knobs.map fun knob => ([], knob.1, printList knob.2) := by
    simp [Document.calls, Function.comp_def]
  obtain ⟨hprinted, hbad⟩ := events_print hd
  rw [parseStream_after, after_eq, firstFailure_eq_zero hbad fun _ _ _ => rfl, hprinted, hcalls]
  refine congrArg (fun user => (user, 0)) ?_
  exact hfold knobs []

/-- A knob with a negative number, 0 and a number of three digits. -/
theorem knobLists_roundTrip_actions :
    (∀ knob ∈ [(['x'], [-7, 0, 300])], ListName knob.1 knob.2) ∧
    parseStream (fun user _ name value => (user ++ [(name, getArrayInt value)], true)) []
      (Document.mk ([(['x'], [-7, 0, 300])].map fun knob => (knob.1, printList knob.2)) []).print =
        ([(['x'], [-7, 0, 300])], 0) := by
  have h : ∀ knob ∈ [(['x'], [-7, 0, 300])], ListName knob.1 knob.2 := by
    intro knob hknob
    obtain rfl := List.mem_singleton.1 hknob
    have hclean : CleanName ['x'] :=
      ⟨fun c hc => Option.some.inj hc ▸ by decide, .inl (by decide), by decide, by decide⟩
    exact ⟨hclean, by decide, by decide, by decide, by decide, by decide +kernel⟩
  exact ⟨h, knobLists_roundTrip _ h⟩

end Ini

end Arishem
