import Sysforge.Toml.Basic

/-!
# Reading back printed TOML

The state files are written line by line by hand-made encoders. This module says what a line must
look like to be read back: a quoted string whose characters are encoded faithfully
(`basicBody_flatMap`), a bare or quoted key, a header line (`readsLine_header`), a pair line
(`readsLine_pair`), a blank line or a comment. `loads_of_reads` assembles lines into a document.
-/

namespace Sysforge.Toml

/-! ## Strings -/

/-- `enc` is read as the one character `c` inside a one-line basic string. -/
def Decodes (enc : Text) (c : Char) : Prop :=
  ∀ rest, basicBody .plain (enc ++ rest) = (basicBody .plain rest).map (consChar c)

theorem decodes_self {c : Char} (hq : c ≠ '"') (hn : c ≠ '\n') (hb : c ≠ '\\') :
    Decodes [c] c := fun rest => by
  simp [basicBody, hq, hn, hb]

theorem decodes_escape {x c : Char} (hu : x ≠ 'u') (hU : x ≠ 'U')
    (h : escapeReplacement x = some c) : Decodes ['\\', x] c := fun rest => by
  simp [basicBody, hu, hU, h]

theorem decodes_hex {a b x y c : Char} (h : hexChar [a, b, x, y] = some c) :
    Decodes ['\\', 'u', a, b, x, y] c := fun rest => by
  simp [basicBody, h]

theorem basicBody_flatMap {enc : Char → Text} {s : Text} (h : ∀ c ∈ s, Decodes (enc c) c)
    (rest : Text) : basicBody .plain (s.flatMap enc ++ '"' :: rest) = some (s, rest) := by
  induction s with
  | nil => simp [basicBody]
  | cons c s ih =>
    rw [List.flatMap_cons, List.append_assoc, h c List.mem_cons_self,
      ih fun c' hc' => h c' (List.mem_cons_of_mem _ hc')]
    rfl

/-- A string between double quotes, its characters encoded by `enc`. -/
def quoted (enc : Char → Text) (s : Text) : Text := '"' :: (s.flatMap enc ++ ['"'])

/-- A quoted string that is not the opening of a multi-line string is read as a value. -/
theorem value_quoted {enc : Char → Text} {s : Text} (h : ∀ c ∈ s, Decodes (enc c) c)
    (hne : ∀ c ∈ s, ∃ x l, enc c = x :: l ∧ x ≠ '"') (n : ℕ) {rest : Text}
    (hr : rest.head? ≠ some '"') :
    value (n + 1) (quoted enc s ++ rest) = some (.str (String.ofList s), rest) := by
  have htake : (s.flatMap enc ++ '"' :: rest).take 2 ≠ ['"', '"'] := by
    cases s with
    | nil =>
      cases rest with
      | nil => simp
      | cons c rest => simpa using hr
    | cons c s =>
      obtain ⟨x, l, hx, hq⟩ := hne c List.mem_cons_self
      simp [hx, hq]
  rw [quoted, List.cons_append, value, if_pos rfl, basicValue, List.append_assoc,
    List.singleton_append, if_neg htake, basicBody_flatMap h]
  rfl

/-- Every character may stand in a document. -/
def Legal (s : Text) : Prop := ∀ c ∈ s, isLegal c

instance (s : Text) : Decidable (Legal s) := List.decidableBAll _ s

theorem Legal.append {s t : Text} (hs : Legal s) (ht : Legal t) : Legal (s ++ t) := fun c hc =>
  (List.mem_append.1 hc).elim (hs c) (ht c)

theorem Legal.cons {c : Char} {s : Text} (hc : isLegal c) (hs : Legal s) : Legal (c :: s) :=
  List.forall_mem_cons.2 ⟨hc, hs⟩

theorem Legal.nil : Legal [] := List.forall_mem_nil _

theorem legal_quoted {enc : Char → Text} {s : Text} (h : ∀ c ∈ s, Legal (enc c)) :
    Legal (quoted enc s) := by
  refine .cons (by decide) (.append (fun c hc => ?_) (.cons (by decide) .nil))
  obtain ⟨x, hx, hc⟩ := List.mem_flatMap.1 hc
  exact h x hx c hc

/-! ## Keys -/

/-- `txt` is read as the key part `k` in front of anything that ends a bare key. -/
def IsKeyPart (txt : Text) (k : String) : Prop :=
  ∀ rest : Text, (∀ c ∈ rest.head?, isBareKeyChar c = false) →
    keyPart (txt ++ rest) = some (k, rest)

theorem isKeyPart_quoted {enc : Char → Text} {k : String}
    (h : ∀ c ∈ k.toList, Decodes (enc c) c) : IsKeyPart (quoted enc k.toList) k := fun rest _ => by
  rw [quoted, List.cons_append, keyPart, if_pos rfl, List.append_assoc, List.singleton_append,
    basicBody_flatMap h]
  simp [toStr]

/-- A text that is a key without quotes. -/
structure IsBare (s : Text) : Prop where
  ne_nil : s ≠ []
  bare : ∀ c ∈ s, isBareKeyChar c

instance (s : Text) : Decidable (IsBare s) :=
  have := List.decidableBAll (fun c => isBareKeyChar c = true) s
  decidable_of_iff (s ≠ [] ∧ ∀ c ∈ s, isBareKeyChar c) ⟨fun h => ⟨h.1, h.2⟩, fun h => ⟨h.1, h.2⟩⟩

theorem isKeyPart_bare {k : String} (h : IsBare k.toList) : IsKeyPart k.toList k := fun rest hr => by
  obtain ⟨c, cs, hk⟩ := List.exists_cons_of_ne_nil h.ne_nil
  have hc : isBareKeyChar c := h.bare c (by simp [hk])
  have hq : c ≠ '"' ∧ c ≠ '\'' := by
    constructor <;> rintro rfl <;> exact absurd hc (by decide)
  have hspan : (k.toList ++ rest).span isBareKeyChar = (k.toList, rest) := by
    rw [List.span_eq_takeWhile_dropWhile, List.takeWhile_append_of_pos h.bare,
      List.dropWhile_append_of_pos h.bare]
    cases rest with
    | nil => simp
    | cons c rest => simp [hr c rfl]
  rw [hk, List.cons_append, keyPart, if_neg hq.1, if_neg hq.2, if_pos hc, ← List.cons_append, ← hk,
    hspan]
  simp [toStr]

theorem isLegal_of_isAlphanum {c : Char} (h : c.isAlphanum) : isLegal c := by
  by_cases hc : c.toNat < 128
  · have hascii : ∀ n < 128, (Char.ofNat n).isAlphanum → isLegal (Char.ofNat n) := by decide
    have := hascii c.toNat hc
    rw [Char.ofNat_toNat] at this
    exact this h
  · have hr : 0x20 ≤ c.toNat ∧ c.toNat ≠ 0x7f := by omega
    simp [isLegal, hr]

theorem IsBare.legal {s : Text} (h : IsBare s) : Legal s := fun c hc => by
  have := h.bare c hc
  simp only [isBareKeyChar, Bool.or_eq_true, decide_eq_true_eq] at this
  rcases this with (h | rfl) | rfl
  · exact isLegal_of_isAlphanum h
  · decide
  · decide

theorem toNat_of_isBareKeyChar {c : Char} (h : isBareKeyChar c) : c.toNat < 128 := by
  rw [isBareKeyChar, Bool.or_eq_true, Bool.or_eq_true] at h
  rcases h with (h | h) | h
  · have hcases : ((c.isUpper || c.isLower) || c.isDigit) = true := h
    rw [Bool.or_eq_true, Bool.or_eq_true] at hcases
    rcases hcases with (h | h) | h
    · have hle : c.toNat ≤ 'Z'.toNat := (of_decide_eq_true h).2
      exact hle.trans_lt (by decide)
    · have hle : c.toNat ≤ 'z'.toNat := of_decide_eq_true ((Bool.and_eq_true_iff).mp h).2
      exact hle.trans_lt (by decide)
    · exact (Char.isDigit_iff_toNat.mp h).2.trans_lt (by decide)
  · rw [of_decide_eq_true h]
    decide
  · rw [of_decide_eq_true h]
    decide

/-- The text of a dotted key. -/
def dotted : List Text → Text
  | [] => []
  | [t] => t
  | t :: ts => t ++ '.' :: dotted ts

theorem skipWs_of_head {cs : Text} (h : ∀ c ∈ cs.head?, isWs c = false) : skipWs cs = cs := by
  cases cs with
  | nil => rfl
  | cons c cs => simp [skipWs, h c rfl]

/-- A key part starts with a quote or a bare key character. -/
theorem IsKeyPart.exists_cons {txt : Text} {k : String} (h : IsKeyPart txt k) :
    ∃ c cs, txt = c :: cs ∧ (c = '"' ∨ c = '\'' ∨ isBareKeyChar c) := by
  have := h [] (by simp)
  rw [List.append_nil] at this
  cases txt with
  | nil => simp [keyPart] at this
  | cons c cs =>
    refine ⟨c, cs, rfl, ?_⟩
    by_contra hc
    push Not at hc
    simp [keyPart, hc] at this

/-- No key part starts with whitespace, a newline, a comment or a header. -/
theorem IsKeyPart.head_ne {txt : Text} {k : String} (h : IsKeyPart txt k) :
    ∃ c cs, txt = c :: cs ∧ isWs c = false ∧ c ≠ '\n' ∧ c ≠ '#' ∧ c ≠ '[' := by
  obtain ⟨c, cs, rfl, hc⟩ := h.exists_cons
  refine ⟨c, cs, rfl, ?_⟩
  rcases hc with rfl | rfl | hc
  · decide
  · decide
  · refine ⟨?_, ?_, ?_, ?_⟩
    · by_contra hw
      simp only [Bool.not_eq_false, isWs, Bool.or_eq_true, decide_eq_true_eq] at hw
      rcases hw with rfl | rfl <;> exact absurd hc (by decide)
    all_goals rintro rfl; exact absurd hc (by decide)

theorem skipWs_keyPart {txt : Text} {k : String} (h : IsKeyPart txt k) (rest : Text) :
    skipWs (txt ++ rest) = txt ++ rest := by
  obtain ⟨c, cs, rfl, hc, -⟩ := h.head_ne
  exact skipWs_of_head (by rintro c' ⟨⟩; exact hc)

/-- The parts of a dotted key, each by its text. -/
def AreKeyParts (ps : List (Text × String)) : Prop := ∀ p ∈ ps, IsKeyPart p.1 p.2

@[simp] theorem dotted_singleton (t : Text) : dotted [t] = t := rfl

@[simp] theorem dotted_cons_cons (t u : Text) (ts : List Text) :
    dotted (t :: u :: ts) = t ++ '.' :: dotted (u :: ts) := rfl

theorem dotted_cons {t : Text} {ts : List Text} (h : ts ≠ []) :
    dotted (t :: ts) = t ++ '.' :: dotted ts := by
  cases ts with
  | nil => exact absurd rfl h
  | cons => rfl

theorem legal_dotted {ts : List Text} (h : ∀ t ∈ ts, Legal t) : Legal (dotted ts) := by
  induction ts with
  | nil => exact .nil
  | cons t ts ih =>
    have ht := h t List.mem_cons_self
    have hts := ih fun u hu => h u (List.mem_cons_of_mem _ hu)
    cases ts with
    | nil => exact ht
    | cons u us => exact ht.append (.cons (by decide) hts)

theorem keyRest_dotted {ps : List (Text × String)} (h : AreKeyParts ps) {rest : Text}
    (hr : ∀ c ∈ rest.head?, isBareKeyChar c = false) (hd : (skipWs rest).head? ≠ some '.')
    (acc : Key) (n : ℕ) (hn : ps.length < n) :
    keyRest n acc (ps.flatMap (fun p => '.' :: p.1) ++ rest) =
      some (acc ++ ps.map Prod.snd, skipWs rest) := by
  induction ps generalizing acc n with
  | nil =>
    obtain ⟨n, rfl⟩ := Nat.exists_eq_succ_of_ne_zero (Nat.ne_of_gt hn)
    simp [keyRest, hd]
  | cons p ps ih =>
    obtain ⟨n, rfl⟩ := Nat.exists_eq_succ_of_ne_zero (Nat.ne_of_gt (Nat.zero_lt_of_lt hn))
    have hp := h p List.mem_cons_self
    have hps : AreKeyParts ps := fun q hq => h q (List.mem_cons_of_mem _ hq)
    have htail : ∀ c ∈ (ps.flatMap (fun p => '.' :: p.1) ++ rest).head?,
        isBareKeyChar c = false := by
      cases ps with
      | nil => simpa using hr
      | cons q qs => rintro c ⟨⟩; decide
    have hdot : ∀ cs, skipWs ('.' :: cs) = '.' :: cs := fun cs => skipWs_of_head (by
      rintro c ⟨⟩; decide)
    rw [List.flatMap_cons, List.append_assoc, List.cons_append, keyRest, hdot, List.head?_cons,
      if_pos rfl, List.tail_cons, skipWs_keyPart hp, hp _ htail, Option.bind_some,
      ih hps (acc ++ [p.2]) n (by simpa using hn)]
    simp

/-- **A printed key is read back**, the whitespace after it skipped. -/
theorem key_dotted {ps : List (Text × String)} (h : AreKeyParts ps) (hne : ps ≠ []) {r : Text}
    (hr : ∀ c ∈ r.head?, isBareKeyChar c = false) (hd : (skipWs r).head? ≠ some '.') :
    key (dotted (ps.map Prod.fst) ++ r) = some (ps.map Prod.snd, skipWs r) := by
  obtain ⟨p, ps, rfl⟩ := List.exists_cons_of_ne_nil hne
  have hdots : ∀ (p : Text × String) (ps : List (Text × String)),
      dotted ((p :: ps).map Prod.fst) = p.1 ++ ps.flatMap (fun p => '.' :: p.1) := by
    intro p ps
    induction ps generalizing p with
    | nil => simp
    | cons q qs ih => rw [List.map_cons, dotted_cons (by simp), ih]; simp
  have htail : ∀ c ∈ (ps.flatMap (fun p => '.' :: p.1) ++ r).head?,
      isBareKeyChar c = false := by
    cases ps with
    | nil => simpa using hr
    | cons q qs => rintro c ⟨⟩; decide
  have hlen : ps.length < (ps.flatMap (fun p => '.' :: p.1) ++ r).length + 1 := by
    have : ps.length ≤ (ps.flatMap (fun p => '.' :: p.1)).length := by
      clear * -
      induction ps with
      | nil => simp
      | cons p ps ih => simp only [List.flatMap_cons, List.length_append, List.length_cons]; omega
    simp only [List.length_append]
    omega
  rw [hdots, List.append_assoc, key, h p List.mem_cons_self _ htail, Option.bind_some,
    keyRest_dotted (fun q hq => h q (List.mem_cons_of_mem _ hq)) hr hd _ _ hlen]
  rfl

/-! ## Lines -/

/-- Reading the line `l` takes the reader from `d` to `d'`. -/
def ReadsLine (l : Text) (d d' : Doc) : Prop := ∀ rest, expr d (l ++ '\n' :: rest) = some (d', rest)

/-- Reading the lines `ls` in order takes the reader from `d` to `d'`. -/
inductive ReadsLines : List Text → Doc → Doc → Prop
  | nil (d : Doc) : ReadsLines [] d d
  | cons {l : Text} {ls : List Text} {d d' d'' : Doc} :
    ReadsLine l d d' → ReadsLines ls d' d'' → ReadsLines (l :: ls) d d''

theorem ReadsLines.append {ls ms : List Text} {d d' d'' : Doc} (h : ReadsLines ls d d')
    (h' : ReadsLines ms d' d'') : ReadsLines (ls ++ ms) d d'' := by
  induction h with
  | nil => exact h'
  | cons hl _ ih => exact .cons hl (ih h')

theorem readsLine_blank (d : Doc) : ReadsLine [] d d := fun rest => by
  simp [expr, skipWs, isWs]

theorem dropWhile_ne_newline {cs : Text} (h : '\n' ∉ cs) (rest : Text) :
    (cs ++ '\n' :: rest).dropWhile (· ≠ '\n') = '\n' :: rest := by
  rw [List.dropWhile_append_of_pos fun c hc => by
    simpa using fun e : c = '\n' => h (e ▸ hc)]
  simp

theorem endOfExpr_newline (rest : Text) : endOfExpr ('\n' :: rest) = some rest := by
  simp [endOfExpr, skipWs, isWs, skipComment]

theorem readsLine_comment {cs : Text} (h : '\n' ∉ cs) (d : Doc) : ReadsLine ('#' :: cs) d d :=
  fun rest => by
    have hsk : ∀ l : Text, skipWs ('#' :: l) = '#' :: l := fun l => skipWs_of_head (by
      rintro c ⟨⟩; decide)
    rw [List.cons_append, expr, hsk]
    simp only [endOfExpr, hsk, skipComment, dropWhile_ne_newline h]
    rfl

/-! ## Header lines -/

/-- The line `[k₁.k₂…]`. -/
def headerLine (ts : List Text) : Text := '[' :: (dotted ts ++ [']'])

theorem legal_headerLine {ts : List Text} (h : ∀ t ∈ ts, Legal t) : Legal (headerLine ts) :=
  .cons (by decide) (.append (legal_dotted h) (.cons (by decide) .nil))

theorem expr_header (d : Doc) (cs : Text) :
    expr d ('[' :: cs) = (header d cs).bind fun p => (endOfExpr p.2).map fun r => (p.1, r) := by
  rw [expr, skipWs_of_head (by rintro c ⟨⟩; decide)]
  rfl

theorem readsLine_header {ps : List (Text × String)} (h : AreKeyParts ps) (hne : ps ≠ [])
    {d d' : Doc} (hd : d.finalize.openTable (ps.map Prod.snd) = some d') :
    ReadsLine (headerLine (ps.map Prod.fst)) d d' := fun rest => by
  have hkey := key_dotted h hne (r := ']' :: '\n' :: rest) (by rintro c ⟨⟩; decide)
    (by rw [skipWs_of_head (by rintro c ⟨⟩; decide)]; simp)
  rw [skipWs_of_head (by rintro c ⟨⟩; decide)] at hkey
  obtain ⟨p, ps, rfl⟩ := List.exists_cons_of_ne_nil hne
  obtain ⟨c, cs, hc, hws, -, -, hbr⟩ := (h p List.mem_cons_self).head_ne
  obtain ⟨cs', hcs'⟩ : ∃ cs', dotted ((p :: ps).map Prod.fst) ++ ']' :: '\n' :: rest = c :: cs' := by
    cases ps with
    | nil => exact ⟨cs ++ ']' :: '\n' :: rest, by simp [hc]⟩
    | cons q qs => exact ⟨_, by rw [List.map_cons, dotted_cons (by simp), hc]; rfl⟩
  rw [headerLine, List.cons_append, List.append_assoc, List.singleton_append, expr_header, header]
  · rw [hcs', skipWs_of_head (by rintro c' ⟨⟩; exact hws), ← hcs', hkey]
    simp only [Option.bind_some, hd, Option.map_some, endOfExpr_newline]
  · intro cs'' h'
    rw [hcs'] at h'
    exact hbr (List.cons.inj h').1

/-! ## Pair lines -/

/-- `txt` is read as the value `v` in front of a newline. -/
def IsValue (txt : Text) (v : Value) : Prop :=
  (∃ c cs, txt = c :: cs ∧ isWs c = false) ∧
    ∀ n rest, txt.length < n → value n (txt ++ '\n' :: rest) = some (v, '\n' :: rest)

/-- The line `key = value`. -/
def pairLine (k v : Text) : Text := k ++ ' ' :: '=' :: ' ' :: v

theorem legal_pairLine {k v : Text} (hk : Legal k) (hv : Legal v) : Legal (pairLine k v) :=
  hk.append (.cons (by decide) (.cons (by decide) (.cons (by decide) hv)))

theorem pair_pairLine {k v : Text} {name : String} {val : Value} (hk : IsKeyPart k name)
    (hv : IsValue v val) (rest : Text) :
    pair (pairLine k v ++ '\n' :: rest) = some (([name], val), '\n' :: rest) := by
  have hparts : AreKeyParts [(k, name)] := by simpa [AreKeyParts] using hk
  have hkey := key_dotted hparts (by simp) (r := ' ' :: '=' :: ' ' :: (v ++ '\n' :: rest)) (by rintro c ⟨⟩; decide)
    (by simp [skipWs, isWs])
  obtain ⟨⟨c, cs, rfl, hc⟩, hv⟩ := hv
  have hsk : skipWs (' ' :: (c :: cs ++ '\n' :: rest)) = c :: cs ++ '\n' :: rest := by
    rw [skipWs, List.dropWhile_cons_of_pos (by decide), List.cons_append,
      List.dropWhile_cons_of_neg (by simp [hc])]
  have heq : skipWs (' ' :: '=' :: ' ' :: (c :: cs ++ '\n' :: rest)) =
      '=' :: ' ' :: (c :: cs ++ '\n' :: rest) := by
    rw [skipWs, List.dropWhile_cons_of_pos (by decide), List.dropWhile_cons_of_neg (by decide)]
  rw [heq] at hkey
  simp only [List.map_cons, List.map_nil, dotted] at hkey
  rw [pairLine, List.append_assoc, List.cons_append, List.cons_append, List.cons_append, pair,
    hkey]
  simp only [Option.bind_some]
  rw [hsk, hv _ _ (by simp only [List.length_append, List.length_cons]; omega)]
  rfl

theorem readsLine_pair {k v : Text} {name : String} {val : Value} (hk : IsKeyPart k name)
    (hv : IsValue v val) {d d' : Doc} (hd : d.addPair [name] val = some d') :
    ReadsLine (pairLine k v) d d' := fun rest => by
  obtain ⟨c, cs, rfl, hws, hn, hc, hb⟩ := hk.head_ne
  have hpair := pair_pairLine hk hv rest
  rw [pairLine, List.cons_append, List.cons_append] at hpair ⊢
  rw [expr, skipWs_of_head (by rintro c' ⟨⟩; exact hws)]
  split
  · cases ‹_›
  · exact absurd (List.cons.inj ‹_›).1 hn
  · exact absurd (List.cons.inj ‹_›).1 hc
  · exact absurd (List.cons.inj ‹_›).1 hb
  · rw [hpair]
    simp [hd, endOfExpr_newline]

/-! ## Values -/

theorem isValue_quoted {enc : Char → Text} {s : Text} (h : ∀ c ∈ s, Decodes (enc c) c)
    (hne : ∀ c ∈ s, ∃ x l, enc c = x :: l ∧ x ≠ '"') :
    IsValue (quoted enc s) (.str (String.ofList s)) := by
  refine ⟨⟨'"', _, rfl, by decide⟩, fun n rest hn => ?_⟩
  obtain ⟨n, rfl⟩ := Nat.exists_eq_succ_of_ne_zero (Nat.ne_of_gt (Nat.zero_lt_of_lt hn))
  exact value_quoted h hne n (by simp)

/-- The text of a TOML boolean. -/
def boolText (b : Bool) : Text := if b then ['t', 'r', 'u', 'e'] else ['f', 'a', 'l', 's', 'e']

theorem legal_boolText (b : Bool) : Legal (boolText b) := by cases b <;> decide

theorem isValue_bool (b : Bool) : IsValue (boolText b) (.bool b) := by
  cases b with
  | false =>
    refine ⟨⟨'f', _, rfl, by decide⟩, fun n rest hn => ?_⟩
    obtain ⟨n, rfl⟩ := Nat.exists_eq_succ_of_ne_zero (Nat.ne_of_gt (Nat.zero_lt_of_lt hn))
    simp [boolText, value]
  | true =>
    refine ⟨⟨'t', _, rfl, by decide⟩, fun n rest hn => ?_⟩
    obtain ⟨n, rfl⟩ := Nat.exists_eq_succ_of_ne_zero (Nat.ne_of_gt (Nat.zero_lt_of_lt hn))
    simp [boolText, value]

/-! ## Documents -/

/-- Lines in front of a document are read first. -/
theorem exprs_append {ls : List Text} {d d' : Doc} (h : ReadsLines ls d d') (n : ℕ) (rest : Text) :
    exprs (n + ls.length) d (ls.flatMap (· ++ ['\n']) ++ rest) = exprs n d' rest := by
  induction h with
  | nil => rfl
  | @cons l ls d d' d'' hl _ ih =>
    have hl := hl (ls.flatMap (· ++ ['\n']) ++ rest)
    rw [List.flatMap_cons, List.append_assoc, List.append_assoc, List.singleton_append]
    obtain ⟨c, cs, hc⟩ := List.exists_cons_of_ne_nil
      (l := l ++ '\n' :: (ls.flatMap (· ++ ['\n']) ++ rest)) (by simp)
    rw [hc] at hl ⊢
    rw [List.length_cons, ← Nat.add_assoc, exprs, hl, Option.bind_some]
    exact ih

theorem length_le_flatMap_newline (ls : List Text) :
    ls.length ≤ (ls.flatMap (· ++ ['\n'])).length := by
  induction ls with
  | nil => exact Nat.zero_le _
  | cons l ls ih =>
    rw [List.flatMap_cons, List.length_append, List.length_append, List.length_cons,
      List.length_singleton]
    omega

theorem exprs_of_reads {ls : List Text} {d d' : Doc} (h : ReadsLines ls d d') (n : ℕ)
    (hn : (ls.flatMap (· ++ ['\n'])).length ≤ n) :
    exprs n d (ls.flatMap (· ++ ['\n'])) = some d' := by
  obtain ⟨m, rfl⟩ := Nat.exists_eq_add_of_le' ((length_le_flatMap_newline ls).trans hn)
  have happ := exprs_append h m []
  rw [List.append_nil] at happ
  rw [happ]
  cases m <;> rfl

theorem crlf_of_legal {cs : Text} (h : Legal cs) : crlf cs = cs := by
  induction cs using crlf.induct with
  | case1 => rfl
  | case2 cs => exact absurd (h '\r' List.mem_cons_self) (by decide)
  | case3 c cs hne ih =>
    rw [crlf.eq_3 _ _ hne, ih fun c' hc' => h c' (List.mem_cons_of_mem _ hc')]

theorem ReadsLines.split {ls ms : List Text} {d d'' : Doc} (h : ReadsLines (ls ++ ms) d d'') :
    ∃ d', ReadsLines ls d d' ∧ ReadsLines ms d' d'' := by
  induction ls generalizing d with
  | nil => exact ⟨d, .nil d, h⟩
  | cons l ls ih =>
    cases h with
    | cons hl h =>
      obtain ⟨d', h₁, h₂⟩ := ih h
      exact ⟨d', .cons hl h₁, h₂⟩

/-- The last line is empty, so that every other line is ended by a newline. -/
def EndsBlank (ls : List Text) : Prop := ls.getLast? = some []

theorem EndsBlank.prepend {ms : List Text} (h : EndsBlank ms) (ls : List Text) :
    EndsBlank (ls ++ ms) := by
  rw [EndsBlank, List.getLast?_append, h, Option.some_or]

theorem EndsBlank.append {ls ms : List Text} (h : EndsBlank ls) (h' : ms = [] ∨ EndsBlank ms) :
    EndsBlank (ls ++ ms) := by
  rcases h' with rfl | h'
  · rwa [List.append_nil]
  · exact h'.prepend ls

/-- Blocks that end blank. -/
theorem endsBlank_flatMap {α : Type*} {f : α → List Text} (h : ∀ a, EndsBlank (f a)) (l : List α) :
    l.flatMap f = [] ∨ EndsBlank (l.flatMap f) := by
  induction l with
  | nil => exact Or.inl rfl
  | cons a l ih => exact Or.inr ((h a).append ih)

/-- **A document of readable lines is read.** -/
theorem loads_of_reads {ls : List Text} {d : Doc} (h : ReadsLines ls {} d) (hb : EndsBlank ls)
    (hl : ∀ l ∈ ls, Legal l) : loads (Text.joinLines ls) = some d.data := by
  obtain ⟨ls, rfl⟩ := List.getLast?_eq_some_iff.1 hb
  obtain ⟨d', h₁, h₂⟩ := h.split
  obtain rfl : d' = d := by
    cases h₂ with
    | cons hb hn =>
      cases hn
      have := (readsLine_blank d' []).symm.trans (hb [])
      simpa using this
  have hlegal : Legal (ls.flatMap (· ++ ['\n'])) := by
    intro c hc
    obtain ⟨l, hm, hc⟩ := List.mem_flatMap.1 hc
    rcases List.mem_append.1 hc with hc | hc
    · exact hl l (List.mem_append_left _ hm) c hc
    · rw [List.mem_singleton.1 hc]
      decide
  rw [Text.joinLines_append_nil, loads, crlf_of_legal hlegal]
  rw [if_pos (List.all_eq_true.2 hlegal), exprs_of_reads h₁ _ le_rfl]
  rfl

theorem mem_crlf {s : Text} {c : Char} (hc : c ∈ s) (hr : c ≠ '\r') : c ∈ crlf s := by
  induction s using crlf.induct with
  | case1 => exact hc
  | case2 cs ih =>
    rw [crlf]
    rcases List.mem_cons.1 hc with rfl | hc
    · exact absurd rfl hr
    · rcases List.mem_cons.1 hc with rfl | hc
      · exact List.mem_cons_self
      · exact List.mem_cons_of_mem _ (ih hc)
  | case3 d cs hne ih =>
    rw [crlf.eq_3 _ _ hne]
    rcases List.mem_cons.1 hc with rfl | hc
    · exact List.mem_cons_self
    · exact List.mem_cons_of_mem _ (ih hc)

/-- A document that is read holds no character that none may hold. -/
theorem isLegal_of_loads {s : Text} {t : Table} {c : Char} (h : loads s = some t) (hc : c ∈ s)
    (hr : c ≠ '\r') : isLegal c := by
  rw [loads] at h
  split_ifs at h with hall
  exact List.all_eq_true.1 hall c (mem_crlf hc hr)

end Sysforge.Toml
