import Sysforge.Toml.Print

/-!
# Printed integers and arrays

The values a state file writes besides strings and booleans: `str(n)` of an integer
(`isValue_int`), and an array of quoted strings on one line (`isValue_array`).
-/

namespace Sysforge.Toml

/-! ## Digits -/

theorem digits_newline {ds : Text} (h : ∀ c ∈ ds, c.isDigit) (rest : Text) :
    digits Char.isDigit (ds ++ '\n' :: rest) = (ds, '\n' :: rest) := by
  induction ds with
  | nil => cases rest <;> rfl
  | cons d ds ih =>
    obtain ⟨x, xs, hx⟩ := List.exists_cons_of_ne_nil (l := ds ++ '\n' :: rest) (by simp)
    have hd : d.isDigit := h d List.mem_cons_self
    have ih := ih fun c hc => h c (List.mem_cons_of_mem _ hc)
    rw [hx] at ih
    rw [List.cons_append, hx, digits, if_pos hd, ih]
    rfl

theorem hexVal_digit {c : Char} (h : c.isDigit) : hexVal c = c.toNat - '0'.toNat := if_pos h

theorem natOf_digits {ds : Text} (h : ∀ c ∈ ds, c.isDigit) : natOf 10 ds = Nat.ofDigitChars 10 ds 0 := by
  rw [natOf, Nat.ofDigitChars_eq_foldl]
  refine List.foldl_ext _ _ _ fun n c hc => ?_
  rw [hexVal_digit (h c hc)]

/-- The digits of a number start with `0` only when there is no other. -/
theorem eq_nil_of_toDigits {n : ℕ} {ds : Text} (h : Nat.toDigits 10 n = '0' :: ds) : ds = [] := by
  induction n using Nat.strong_induction_on generalizing ds with
  | _ n ih =>
    rw [Nat.toDigits_eq_if (by decide)] at h
    split_ifs at h with hn
    · exact (List.cons.inj h).2.symm
    · obtain ⟨c, cs, hc⟩ := List.exists_cons_of_ne_nil (Nat.toDigits_ne_nil (n := n / 10) (b := 10))
      rw [hc, List.cons_append] at h
      obtain ⟨rfl, -⟩ := List.cons.inj h
      obtain rfl := ih (n / 10) (by omega) hc
      have hz : Nat.ofDigitChars 10 (Nat.toDigits 10 (n / 10)) 0 = n / 10 :=
        Nat.ofDigitChars_ten_toDigits
      rw [hc] at hz
      have : n / 10 = 0 := hz.symm
      omega

/-- The text of a number: digits, no leading zero. -/
structure IsNumber (ds : Text) (n : ℕ) : Prop where
  ne_nil : ds ≠ []
  digits : ∀ c ∈ ds, c.isDigit
  zero : ∀ cs, ds = '0' :: cs → cs = []
  value : natOf 10 ds = n

theorem isNumber_toDigits (n : ℕ) : IsNumber (Nat.toDigits 10 n) n where
  ne_nil := Nat.toDigits_ne_nil
  digits _ hc := Nat.isDigit_of_mem_toDigits (by decide) (by decide) hc
  zero _ h := eq_nil_of_toDigits h
  value := by
    rw [natOf_digits fun c hc => Nat.isDigit_of_mem_toDigits (by decide) (by decide) hc,
      Nat.ofDigitChars_ten_toDigits]

theorem IsNumber.intPart {ds : Text} {n : ℕ} (h : IsNumber ds n) (rest : Text) :
    intPart (ds ++ '\n' :: rest) = some (ds, '\n' :: rest) := by
  obtain ⟨c, cs, rfl⟩ := List.exists_cons_of_ne_nil h.ne_nil
  by_cases hc : c = '0'
  · subst hc
    obtain rfl := h.zero cs rfl
    rfl
  · rw [List.cons_append, Toml.intPart, digits1, if_pos (h.digits c List.mem_cons_self),
      digits_newline fun d hd => h.digits d (List.mem_cons_of_mem _ hd)]
    · rfl
    · rintro cs' h'
      exact hc (List.cons.inj h').1

/-! ## Integers -/

theorem IsNumber.date_eq_none {ds : Text} {n : ℕ} (h : IsNumber ds n) (rest : Text) :
    date (ds ++ '\n' :: rest) = none := by
  rw [date, List.dropWhile_append_of_pos h.digits]
  simp [expect]

theorem expect_digits {c : Char} (hc : c.isDigit = false) (hn : c ≠ '\n') {ds : Text}
    (h : ∀ d ∈ ds, d.isDigit) (rest : Text) : expect c (ds ++ '\n' :: rest) = none := by
  cases ds with
  | nil => simp [expect, hn.symm]
  | cons d ds =>
    have hd := h d List.mem_cons_self
    have : d ≠ c := by
      rintro rfl
      rw [hc] at hd
      cases hd
    simp [expect, this]

theorem IsNumber.timeRest_eq_none {ds : Text} {n : ℕ} (h : IsNumber ds n) (rest : Text) :
    timeRest (ds ++ '\n' :: rest) = none := by
  have htwo : (twoDigits 24 (ds ++ '\n' :: rest)).bind (fun p => expect ':' p.2) = none := by
    obtain ⟨c, cs, rfl⟩ := List.exists_cons_of_ne_nil h.ne_nil
    cases cs with
    | nil => simp [twoDigits]
    | cons d cs =>
      rw [List.cons_append, List.cons_append, twoDigits]
      split_ifs
      · exact expect_digits (by decide) (by decide) (fun x hx => h.digits x (by simp [hx])) rest
      · rfl
  rw [timeRest]
  cases ht : twoDigits 24 (ds ++ '\n' :: rest) with
  | none => rfl
  | some p =>
    rw [ht, Option.bind_some] at htwo
    simp [htwo]

theorem IsNumber.prefixedInt_eq_none {ds : Text} {n : ℕ} (h : IsNumber ds n) (rest : Text) :
    prefixedInt (ds ++ '\n' :: rest) = none := by
  have hsecond : ∀ a x cs, ds ++ '\n' :: rest = a :: x :: cs → x.isDigit ∨ x = '\n' := by
    intro a x cs he
    obtain ⟨c, ds, rfl⟩ := List.exists_cons_of_ne_nil h.ne_nil
    cases ds with
    | nil => exact Or.inr (List.cons.inj (List.cons.inj he).2).1.symm
    | cons d ds =>
      rw [← (List.cons.inj (List.cons.inj he).2).1]
      exact Or.inl (h.digits d (by simp))
  unfold prefixedInt
  split
  · exact absurd (hsecond _ _ _ ‹_›) (by decide)
  · exact absurd (hsecond _ _ _ ‹_›) (by decide)
  · exact absurd (hsecond _ _ _ ‹_›) (by decide)
  · rfl

theorem decimal_newline {cs : Text} {neg : Bool} {ds : Text} {n : ℕ} {rest : Text}
    (hs : sign cs = (neg, ds ++ '\n' :: rest)) (h : IsNumber ds n) :
    decimal cs = some (.int (if neg then -(n : ℤ) else n), '\n' :: rest) := by
  have hrest : expRest (fracRest ('\n' :: rest)) = '\n' :: rest := by simp [fracRest, expRest]
  rw [decimal, hs, h.intPart]
  simp [hrest, h.value]

/-- A decimal integer in front of a newline. -/
theorem scalar_ofInt (n : ℤ) (rest : Text) :
    scalar (Text.ofInt n ++ '\n' :: rest) = some (.int n, '\n' :: rest) := by
  cases n with
  | ofNat n =>
    have h := isNumber_toDigits n
    have hsign : sign (Nat.toDigits 10 n ++ '\n' :: rest) =
        (false, Nat.toDigits 10 n ++ '\n' :: rest) := by
      obtain ⟨c, cs, hc⟩ := List.exists_cons_of_ne_nil h.ne_nil
      have hd : c.isDigit := h.digits c (by simp [hc])
      rw [hc, List.cons_append]
      unfold sign
      split
      · rename_i heq
        rw [(List.cons.inj heq).1] at hd
        cases hd
      · rename_i heq
        rw [(List.cons.inj heq).1] at hd
        cases hd
      · rfl
    rw [Text.ofInt, scalar, h.date_eq_none, h.timeRest_eq_none, h.prefixedInt_eq_none,
      decimal_newline hsign h]
    rfl
  | negSucc n =>
    have h := isNumber_toDigits (n + 1)
    have hdate : date ('-' :: (Nat.toDigits 10 (n + 1) ++ '\n' :: rest)) = none := by
      simp [date]
    have htime : timeRest ('-' :: (Nat.toDigits 10 (n + 1) ++ '\n' :: rest)) = none := by
      obtain ⟨c, cs, hc⟩ := List.exists_cons_of_ne_nil h.ne_nil
      simp [timeRest, twoDigits, hc]
    rw [Text.ofInt, List.cons_append, scalar, hdate, htime, decimal_newline (show sign _ = (true, _) from rfl) h]
    simp [prefixedInt, Int.negSucc_eq]

theorem ofInt_head (n : ℤ) : ∃ c cs, Text.ofInt n = c :: cs ∧ (c.isDigit ∨ c = '-') := by
  cases n with
  | ofNat n =>
    have h := isNumber_toDigits n
    obtain ⟨c, cs, hc⟩ := List.exists_cons_of_ne_nil h.ne_nil
    exact ⟨c, cs, hc, Or.inl (h.digits c (by simp [hc]))⟩
  | negSucc n => exact ⟨'-', _, rfl, Or.inr rfl⟩

/-- `str(n)` is read as the integer. -/
theorem isValue_int (n : ℤ) : IsValue (Text.ofInt n) (.int n) := by
  obtain ⟨c, cs, hc, hd⟩ := ofInt_head n
  have hne : ∀ x : Char, x.isDigit = false → x ≠ '-' → c ≠ x := by
    rintro x hx hm rfl
    rcases hd with hd | hd
    · rw [hx] at hd
      cases hd
    · exact hm hd
  refine ⟨⟨c, cs, hc, ?_⟩, fun m rest hm => ?_⟩
  · simp [isWs, hne ' ' (by decide) (by decide), hne '\t' (by decide) (by decide)]
  · obtain ⟨m, rfl⟩ := Nat.exists_eq_succ_of_ne_zero (Nat.ne_of_gt (Nat.zero_lt_of_lt hm))
    have hs := scalar_ofInt n rest
    rw [hc, List.cons_append] at hs ⊢
    rw [value, if_neg (hne _ (by decide) (by decide)), if_neg (hne _ (by decide) (by decide)),
      if_neg (hne _ (by decide) (by decide)), if_neg (hne _ (by decide) (by decide)),
      if_neg fun h => hne _ (by decide) (by decide) h.1,
      if_neg fun h => hne _ (by decide) (by decide) h.1, hs]

/-! ## Arrays -/

/-- The text `[a, b, …]` of an array on one line. -/
def arrayText (ts : List Text) : Text := '[' :: ([',', ' '].intercalate ts ++ [']'])

/-- `txt` is read as the value `v` in front of what may follow an item. -/
def IsItem (txt : Text) (v : Value) : Prop :=
  (∃ c cs, txt = c :: cs ∧ isWsNl c = false ∧ c ≠ '#' ∧ c ≠ ']') ∧
    ∀ n rest, (rest.head? = some ',' ∨ rest.head? = some ']') →
      value (n + 1) (txt ++ rest) = some (v, rest)

theorem isItem_quoted {enc : Char → Text} {s : Text} (h : ∀ c ∈ s, Decodes (enc c) c)
    (hne : ∀ c ∈ s, ∃ x l, enc c = x :: l ∧ x ≠ '"') :
    IsItem (quoted enc s) (.str (String.ofList s)) :=
  ⟨⟨'"', _, rfl, by decide⟩, fun n rest hr => value_quoted h hne n (by
    rcases hr with hr | hr <;> simp [hr])⟩

theorem skipArrayWs_of_head {c : Char} (hw : isWsNl c = false) (hc : c ≠ '#') (cs : Text) (n : ℕ) :
    skipArrayWs n (c :: cs) = c :: cs := by
  cases n with
  | zero => rfl
  | succ n =>
    rw [skipArrayWs, List.dropWhile_cons_of_neg (by simp [hw])]
    split
    · exact absurd (List.cons.inj ‹_›).1 hc
    · rfl

theorem skipArrayWs_space {c : Char} (hw : isWsNl c = false) (hc : c ≠ '#') (cs : Text) (n : ℕ) :
    skipArrayWs (n + 1) (' ' :: c :: cs) = c :: cs := by
  have hdrop : (' ' :: c :: cs).dropWhile isWsNl = c :: cs := by
    rw [List.dropWhile_cons_of_pos (by decide), List.dropWhile_cons_of_neg (by simp [hw])]
  rw [skipArrayWs, hdrop]
  split
  · exact absurd (List.cons.inj ‹_›).1 hc
  · rfl

theorem arrayItems_last {t : Text} {v : Value} (h : IsItem t v) (acc : List Value) (n : ℕ)
    (rest : Text) : arrayItems (n + 2) acc (t ++ ']' :: rest) = some (.array (acc ++ [v]), rest) := by
  obtain ⟨⟨c, cs, rfl, -, -, hb⟩, hv⟩ := h
  have hv := hv n (']' :: rest) (Or.inr rfl)
  rw [List.cons_append] at hv ⊢
  rw [arrayItems, hv, Option.bind_some, skipArrayWs_of_head (by decide) (by decide)]
  · rfl
  · exact fun cs' h' => hb (List.cons.inj h').1

theorem arrayItems_next {t : Text} {v : Value} (h : IsItem t v) (acc : List Value) (n : ℕ)
    {c : Char} (hw : isWsNl c = false) (hc : c ≠ '#') (cs : Text) :
    arrayItems (n + 2) acc (t ++ ',' :: ' ' :: c :: cs) =
      arrayItems (n + 1) (acc ++ [v]) (c :: cs) := by
  obtain ⟨⟨x, xs, rfl, -, -, hb⟩, hv⟩ := h
  have hv := hv n (',' :: ' ' :: c :: cs) (Or.inl rfl)
  rw [List.cons_append] at hv ⊢
  rw [arrayItems, hv, Option.bind_some, skipArrayWs_of_head (by decide) (by decide)]
  · exact congrArg _ (skipArrayWs_space hw hc cs _)
  · exact fun cs' h' => hb (List.cons.inj h').1

/-- Items joined start with the first character of the first one. -/
theorem intercalate_head {t : Text} {c : Char} {cs : Text} (h : t = c :: cs) (ts : List Text)
    (rest : Text) : ∃ es, [',', ' '].intercalate (t :: ts) ++ rest = c :: es := by
  subst h
  cases ts with
  | nil => exact ⟨cs ++ rest, by simp⟩
  | cons u us => exact ⟨_, by rw [List.intercalate_cons_cons]; rfl⟩

theorem arrayItems_intercalate {ps : List (Text × Value)} (h : ∀ p ∈ ps, IsItem p.1 p.2)
    (hne : ps ≠ []) (acc : List Value) (n : ℕ) (hn : ps.length < n) (rest : Text) :
    arrayItems n acc ([',', ' '].intercalate (ps.map Prod.fst) ++ ']' :: rest) =
      some (.array (acc ++ ps.map Prod.snd), rest) := by
  induction ps generalizing acc n with
  | nil => exact absurd rfl hne
  | cons p ps ih =>
    obtain ⟨n, rfl⟩ : ∃ m, n = m + 2 := ⟨n - 2, by rw [List.length_cons] at hn; omega⟩
    have hp := h p List.mem_cons_self
    cases ps with
    | nil =>
      rw [List.map_singleton, List.intercalate_singleton]
      exact arrayItems_last hp acc n rest
    | cons q qs =>
      have ih := ih (fun x hx => h x (List.mem_cons_of_mem _ hx)) (by simp) (acc ++ [p.2]) (n + 1)
        (by rw [List.length_cons] at hn; omega)
      obtain ⟨d, ds, hd, hw, hh, -⟩ := (h q (by simp)).1
      obtain ⟨es, hes⟩ := intercalate_head hd (qs.map Prod.fst) (']' :: rest)
      rw [List.map_cons, hes] at ih
      rw [List.map_cons, List.map_cons, List.intercalate_cons_cons, List.append_assoc,
        List.append_assoc, hes]
      refine (arrayItems_next hp acc n hw hh es).trans (ih.trans ?_)
      simp

theorem length_le_intercalate {ts : List Text} (h : ∀ t ∈ ts, t ≠ []) :
    ts.length ≤ ([',', ' '].intercalate ts).length := by
  induction ts with
  | nil => simp
  | cons t ts ih =>
    have ht := List.length_pos_iff.2 (h t List.mem_cons_self)
    have ih := ih fun u hu => h u (List.mem_cons_of_mem _ hu)
    cases ts with
    | nil =>
      rw [List.intercalate_singleton]
      exact ht
    | cons u us =>
      rw [List.intercalate_cons_cons, List.length_append, List.length_append]
      simp only [List.length_cons, List.length_nil] at ih ⊢
      omega

/-- An array of items on one line is read as the array of their values. -/
theorem isValue_array {ps : List (Text × Value)} (h : ∀ p ∈ ps, IsItem p.1 p.2) :
    IsValue (arrayText (ps.map Prod.fst)) (.array (ps.map Prod.snd)) := by
  refine ⟨⟨'[', _, rfl, by decide⟩, fun n rest hn => ?_⟩
  have hlen : ps.length ≤ ([',', ' '].intercalate (ps.map Prod.fst)).length := by
    have := @length_le_intercalate (ps.map Prod.fst) fun t ht => by
      obtain ⟨p, hp, rfl⟩ := List.mem_map.1 ht
      obtain ⟨c, cs, hc, -⟩ := (h p hp).1
      rw [hc]
      exact List.cons_ne_nil _ _
    simpa using this
  simp only [arrayText, List.length_cons, List.length_append, List.length_nil] at hn
  obtain ⟨n, rfl⟩ : ∃ m, n = m + 1 := ⟨n - 1, by omega⟩
  rw [arrayText, List.cons_append, List.append_assoc, List.singleton_append, value,
    if_neg (by decide), if_neg (by decide), if_pos rfl]
  cases ps with
  | nil =>
    obtain ⟨n, rfl⟩ : ∃ m, n = m + 1 := ⟨n - 1, by omega⟩
    rw [List.map_nil, List.intercalate_nil, List.nil_append,
      skipArrayWs_of_head (by decide) (by decide), arrayItems]
    · rfl
    · exact Nat.succ_ne_zero n
  | cons p ps =>
    obtain ⟨c, cs, hc, hw, hh, -⟩ := (h p List.mem_cons_self).1
    obtain ⟨es, hes⟩ := intercalate_head hc (ps.map Prod.fst) (']' :: '\n' :: rest)
    have hitems := arrayItems_intercalate h (by simp) [] n (by omega) ('\n' :: rest)
    rw [List.map_cons, hes] at hitems ⊢
    rw [skipArrayWs_of_head hw hh, hitems]
    rfl

end Sysforge.Toml
