import Sysforge.Boot.LoaderEntry

/-!
# Reading back a managed entry

What `render_entry` writes is read by `parse_entry` as the fields it was written from, under the
header it was written with: the entry is sysforge's, it boots its kernel, and its role and version
are those it was given.
-/

namespace Sysforge.Boot

open Text

variable {s t k role title filename text : Text} {e : LoaderEntry} {version pre : Option Text}

/-! ## What a parsed entry holds -/

/-- The value is within one line, without spaces around it. -/
def Clean (v : Text) : Prop := OneLine v ∧ strip v = v

theorem clean_strip (h : OneLine s) : Clean (strip s) := ⟨h.of_subset strip_subset, strip_strip s⟩

theorem clean_of_mem_lines {p : Text × Text} (hp : p ∈ (parseEntry filename text).lines) :
    Clean p.2 := by
  obtain ⟨line, hline, rfl⟩ := List.mem_map.mp hp
  obtain ⟨raw, hraw, rfl⟩ := List.mem_map.mp (List.mem_filter.mp hline).1
  have hone : OneLine (strip raw) := (oneLine_of_mem_splitlines hraw).of_subset strip_subset
  exact clean_strip (hone.of_subset (List.dropWhile_suffix _).subset)

theorem LoaderEntry.mem_of_get {key : String} {v : Text} (h : e.get key = some v) :
    (key.toList, v) ∈ e.lines := by
  obtain ⟨⟨key', v'⟩, hp, rfl⟩ := Option.map_eq_some_iff.mp h
  have hkey := List.find?_some hp
  obtain rfl : key' = key.toList := of_decide_eq_true hkey
  exact List.mem_of_find?_eq_some hp

theorem LoaderEntry.mem_of_getAll {key : String} {v : Text} (h : v ∈ e.getAll key) :
    (key.toList, v) ∈ e.lines := by
  obtain ⟨⟨key', v'⟩, hp, rfl⟩ := List.mem_map.mp h
  obtain ⟨hmem, hkey⟩ := List.mem_filter.mp hp
  obtain rfl : key' = key.toList := of_decide_eq_true hkey
  exact hmem

theorem truthy_eq_some {o : Option Text} {v : Text} (h : truthy o = some v) : o = some v ∧ v ≠ [] := by
  match o, h with
  | some (c :: v), rfl => exact ⟨rfl, List.cons_ne_nil c v⟩

/-! ## Entries written from fields -/

/-- A key that `parse_entry` reads back. -/
def FieldKey (key : String) : Prop :=
  key.toList ≠ [] ∧ NoSpace key.toList ∧ key.toList.head? ≠ some '#'

/-- A key that `parse_entry` reads back, with a value within one line. -/
def Field (f : String × Text) : Prop := FieldKey f.1 ∧ OneLine f.2

theorem joinLines_newline (l : Text) (ls : List Text) :
    joinLines (l :: ls) ++ ['\n'] = unlines (l :: ls) := by
  induction ls generalizing l with
  | nil => simp [joinLines, unlines]
  | cons m ls ih =>
    rw [joinLines, List.append_assoc, List.cons_append, ih, unlines, unlines,
      @List.flatMap_cons _ _ l, List.append_assoc, List.singleton_append]
    exact List.cons_ne_nil m ls

theorem parseLine_field {f : String × Text} (hf : Field f) :
    parseLine (strip (f.1.toList ++ ' ' :: f.2)) = (f.1.toList, strip f.2) := by
  rw [parseLine, firstWord_keyValue hf.1.1 hf.1.2.1, strip_afterWord_keyValue hf.1.1 hf.1.2.1]

theorem isField_field {f : String × Text} (hf : Field f) :
    isField (strip (f.1.toList ++ ' ' :: f.2)) = true := by
  obtain ⟨⟨hne, hsp, hhash⟩, -⟩ := hf
  obtain ⟨c, key, hkey⟩ := List.exists_cons_of_ne_nil hne
  rw [strip_keyValue hne hsp, hkey, List.cons_append]
  rw [hkey] at hhash
  rw [isField, Bool.and_eq_true]
  exact ⟨decide_eq_true (List.cons_ne_nil _ _), decide_eq_true hhash⟩

theorem oneLine_field {f : String × Text} (hf : Field f) : OneLine (f.1.toList ++ ' ' :: f.2) := by
  have hkey : OneLine f.1.toList := fun c hc => by
    rw [Bool.eq_false_iff]
    exact fun h => absurd (isSpace_of_isLineBreak h) (ne_true_of_eq_false (hf.1.2.1 c hc))
  refine hkey.append fun c hc => ?_
  rcases List.mem_cons.mp hc with rfl | hc
  · rfl
  · exact hf.2 c hc

/-- **Reading back**: the fields come back with stripped values, under their header. -/
theorem parseEntry_fields {header : Text} (hone : OneLine header) (hstrip : strip header = header)
    (hhash : header.head? = some '#') {fields : List (String × Text)} (hf : ∀ f ∈ fields, Field f) :
    parseEntry filename
        (joinLines (header :: fields.map fun f => f.1.toList ++ ' ' :: f.2) ++ ['\n']) =
      ⟨filename, fields.map fun f => (f.1.toList, strip f.2), some header⟩ := by
  have hlines : ∀ l ∈ header :: fields.map fun f => f.1.toList ++ ' ' :: f.2, OneLine l := by
    intro l hl
    rcases List.mem_cons.mp hl with rfl | hl
    · exact hone
    · obtain ⟨f, hmem, rfl⟩ := List.mem_map.mp hl
      exact oneLine_field (hf f hmem)
  have hbom : ∀ s : Text, ((header ++ s).dropWhile fun c => c = '\ufeff') = header ++ s := by
    intro s
    cases header with
    | nil => cases hhash
    | cons c l =>
      obtain rfl := Option.some.inj hhash
      rfl
  have hread : splitlines ((joinLines (header :: fields.map fun f => f.1.toList ++ ' ' :: f.2) ++
      ['\n']).dropWhile fun c => c = '\ufeff') =
      header :: fields.map fun f => f.1.toList ++ ' ' :: f.2 := by
    rw [joinLines_newline, unlines, List.flatMap_cons, List.append_assoc, hbom,
      ← List.append_assoc, ← List.flatMap_cons (f := fun l : Text => l ++ ['\n']), ← unlines,
      splitlines_unlines hlines]
  have hnot : isField header = false := by
    rw [isField, hhash]
    exact Bool.and_false _
  have hkeep : ((fields.map fun f => f.1.toList ++ ' ' :: f.2).map strip).filter isField =
      (fields.map fun f => f.1.toList ++ ' ' :: f.2).map strip := by
    refine List.filter_eq_self.mpr fun l hl => ?_
    rw [List.map_map] at hl
    obtain ⟨f, hmem, rfl⟩ := List.mem_map.mp hl
    exact isField_field (hf f hmem)
  have hparse : ((fields.map fun f => f.1.toList ++ ' ' :: f.2).map strip).map parseLine =
      fields.map fun f => (f.1.toList, strip f.2) := by
    rw [List.map_map, List.map_map]
    exact List.map_congr_left fun f hmem => parseLine_field (hf f hmem)
  rw [parseEntry, hread, List.map_cons, hstrip, List.filter_cons_of_neg (ne_true_of_eq_false hnot), hkeep,
    hparse, List.head?_cons, Option.map_some, hstrip, Option.filter_some, if_pos (by simpa using hhash)]

theorem get_fields {fields : List (String × Text)} {header : Option Text} (key : String) :
    (LoaderEntry.mk filename (fields.map fun f => (f.1.toList, strip f.2)) header).get key =
      (fields.find? fun f => f.1 = key).map fun f => strip f.2 := by
  rw [LoaderEntry.get, List.find?_map, Option.map_map]
  simp only [Function.comp_def, String.toList_inj]

/-! ## The header -/

/-- A role, `[a-z]+`. -/
def RoleName (role : Text) : Prop := role ≠ [] ∧ ∀ c ∈ role, isLower c = true

theorem toNat_of_isLower {c : Char} (h : isLower c = true) : 97 ≤ c.toNat ∧ c.toNat ≤ 122 := by
  rw [isLower, Bool.and_eq_true] at h
  exact ⟨of_decide_eq_true h.1, of_decide_eq_true h.2⟩

theorem oneLine_of_toNat (h : ∀ c ∈ s, 32 ≤ c.toNat ∧ c.toNat ≤ 122) : OneLine s := by
  intro c hc
  have := h c hc
  refine decide_eq_false fun hmem => ?_
  simp only [List.mem_cons, List.not_mem_nil, or_false] at hmem
  omega

theorem RoleName.oneLine (h : RoleName role) : OneLine role := by
  refine oneLine_of_toNat fun c hc => ?_
  have := toNat_of_isLower (h.2 c hc)
  omega

theorem roleAt_role (h : RoleName role) (s : Text) :
    roleAt (", role: ".toList ++ role ++ ')' :: s) = some role := by
  have hrest : (role ++ ')' :: s).takeWhile isLower = role := by
    rw [List.takeWhile_append_of_pos h.2, List.takeWhile_cons_of_neg (by decide), List.append_nil]
  have htail : (role ++ ')' :: s).dropWhile isLower = ')' :: s := by
    rw [List.dropWhile_append_of_pos h.2, List.dropWhile_cons_of_neg (by decide)]
  have hpre : ", role: ".toList.isPrefixOf (", role: ".toList ++ role ++ ')' :: s) = true := by
    rw [List.isPrefixOf_iff_prefix, List.append_assoc]
    exact List.prefix_append _ _
  rw [roleAt, if_pos hpre, List.append_assoc, List.drop_left]
  dsimp only
  rw [hrest, htail, if_pos ⟨h.1, rfl⟩]

/-- A role cannot start inside a template's name that does not contain one. -/
theorem roleAt_eq_none (hs : s ≠ []) (h : ¬ ", role: ".toList <+: s) (t : Text) :
    roleAt (s ++ (", role: ".toList ++ t)) = none := by
  rw [roleAt, if_neg]
  intro hpre
  rw [List.isPrefixOf_iff_prefix] at hpre
  rcases List.prefix_or_prefix_of_prefix hpre (List.prefix_append s _) with hp | ⟨u, hu⟩
  · exact h hp
  · -- the text after `s` starts with a comma, and the pattern has none after its first
    rw [← hu, List.prefix_append_right_inj] at hpre
    obtain ⟨c, s, rfl⟩ := List.exists_cons_of_ne_nil hs
    cases u with
    | nil => exact h (by rw [← hu, List.append_nil])
    | cons d u =>
      obtain ⟨hc, htail⟩ := List.cons.inj
        (hu.trans (show ", role: ".toList = ',' :: " role: ".toList by decide))
      have hd : d = ',' := by
        obtain ⟨w, hw⟩ := hpre
        exact (List.cons.inj hw).1.trans hc
      have hmem : ',' ∈ " role: ".toList := by
        rw [← htail, hd]
        exact List.mem_append_right s List.mem_cons_self
      exact absurd hmem (by decide)

theorem scanTemplate_eq (hs : ¬ ", role: ".toList <:+: s) (hnl : '\n' ∉ s) (h : RoleName role)
    (t : Text) :
    scanTemplate (s ++ (", role: ".toList ++ role ++ ')' :: t)) = some (s, role) := by
  induction s with
  | nil =>
    have hrole := roleAt_role h t
    rw [List.nil_append]
    rw [show ", role: ".toList ++ role ++ ')' :: t = ',' :: (" role: ".toList ++ role ++ ')' :: t)
      from rfl] at hrole ⊢
    rw [scanTemplate, hrole]
  | cons c s ih =>
    have hnone : roleAt (c :: s ++ (", role: ".toList ++ role ++ ')' :: t)) = none := by
      rw [List.append_assoc]
      exact roleAt_eq_none (List.cons_ne_nil c s) (fun hp => hs hp.isInfix) _
    rw [List.cons_append] at hnone ⊢
    rw [scanTemplate, hnone]
    dsimp only
    rw [if_neg fun hc : c = '\n' => hnl (hc ▸ List.mem_cons_self),
      ih (fun hi => hs (hi.trans (List.suffix_cons c s).isInfix))
        fun hm => hnl (List.mem_cons_of_mem c hm)]
    rfl

theorem headerLine_eq : headerLine s role = headerStart ++ (s ++ (", role: ".toList ++ role ++
    ')' :: "; regenerated on every kernel build; edit the template instead".toList)) := by
  have hend : "); regenerated on every kernel build; edit the template instead".toList =
      ')' :: "; regenerated on every kernel build; edit the template instead".toList := by
    decide
  rw [headerLine, hend, List.append_assoc, List.append_assoc, List.append_assoc,
    List.append_assoc]

theorem parseManagedHeader_headerLine (hs : ¬ ", role: ".toList <:+: s) (hone : OneLine s)
    (h : RoleName role) :
    parseManagedHeader (some (headerLine s role)) = some ⟨if s = [] then none else some s, role⟩ := by
  have hpre : headerStart.isPrefixOf (headerLine s role) = true := by
    rw [headerLine_eq, List.isPrefixOf_iff_prefix]
    exact List.prefix_append _ _
  have hnl : '\n' ∉ s := fun hm => absurd (hone _ hm) (by decide)
  rw [parseManagedHeader, if_pos hpre, headerLine_eq, List.drop_left, scanTemplate_eq hs hnl h]
  rfl

theorem headerLine_oneLine (hone : OneLine s) (h : RoleName role) :
    OneLine (headerLine s role) := by
  rw [headerLine]
  refine (((OneLine.append ?_ hone).append ?_).append h.oneLine).append ?_ <;> decide

theorem headerLine_head : (headerLine s role).head? = some '#' := by
  rw [headerLine_eq]
  rfl

theorem strip_headerLine : strip (headerLine s role) = headerLine s role := by
  refine strip_eq_self_of (fun c hc => ?_) fun c hc => ?_
  · rw [headerLine_head] at hc
    obtain rfl := Option.some.inj hc
    rfl
  · have hlast : "); regenerated on every kernel build; edit the template instead".toList.getLast? =
        some 'd' := by decide
    rw [headerLine, List.getLast?_append, hlast] at hc
    obtain rfl := Option.some.inj hc
    rfl

/-! ## File names -/

/-- The name of a kernel: `vmlinuz-{name}` is a file under `/boot` that a line can hold. -/
structure KernelName (k : Text) : Prop where
  ne_nil : k ≠ []
  slash : '/' ∉ k
  oneLine : OneLine k
  last : ∀ c ∈ k.getLast?, isSpace c = false

theorem isSysforgeTail_entry (hk : KernelName k) :
    isSysforgeTail ("sysforge-".toList ++ k ++ ".conf".toList) = true := by
  have hdrop : ("sysforge-".toList ++ k ++ ".conf".toList).drop 9 = k ++ ".conf".toList := by
    rw [List.append_assoc]
    exact List.drop_left' rfl
  have htake : (k ++ ".conf".toList).take ((k ++ ".conf".toList).length - 5) = k := by
    rw [List.length_append, show ".conf".toList.length = 5 from rfl, Nat.add_sub_cancel,
      List.take_left]
  have hnl : '\n' ∉ k := fun hm => absurd (hk.oneLine _ hm) (by decide)
  have hconf : isConfName (k ++ ".conf".toList) = true := by
    rw [isConfName, htake, Bool.and_eq_true, Bool.and_eq_true, List.isSuffixOf_iff_suffix]
    exact ⟨List.suffix_append _ _, decide_eq_true hk.ne_nil, decide_eq_true hnl⟩
  rw [isSysforgeTail, hdrop, hconf, Bool.true_or, Bool.and_true, List.isPrefixOf_iff_prefix,
    List.append_assoc]
  exact List.prefix_append _ _

/-- A prefix that `validate_prefix` accepts. -/
def ValidPrefix (pre : Option Text) : Prop := ∀ p ∈ pre, validPrefix p = true

theorem prefixPart_some {p : Text} (hp : p ≠ []) : prefixPart (some p) = p ++ ['-'] := by
  cases p with
  | nil => exact absurd rfl hp
  | cons c p => rfl

theorem isSysforgeName_entry (hk : KernelName k) (hpre : ValidPrefix pre) :
    isSysforgeName (entryFilename k pre) = true := by
  have htail := isSysforgeTail_entry hk
  cases pre with
  | none => rw [isSysforgeName, entryFilename, prefixPart, List.nil_append, htail, Bool.true_or]
  | some p =>
    have hp := hpre p rfl
    rw [validPrefix, Bool.and_eq_true] at hp
    have hne : p ≠ [] := of_decide_eq_true hp.1
    have hall : ∀ c ∈ p, isPrefixChar c = true := List.all_eq_true.mp hp.2
    rw [isSysforgeName, entryFilename, prefixPart_some hne, List.append_assoc,
      List.singleton_append, List.takeWhile_append_of_pos hall,
      List.takeWhile_cons_of_neg (by decide), List.dropWhile_append_of_pos hall,
      List.dropWhile_cons_of_neg (by decide), List.tail_cons, htail, List.append_nil,
      decide_eq_true hne, List.head?_cons, decide_eq_true rfl, Bool.or_eq_true]
    exact .inr rfl

theorem entryFilename_inj {k' : Text} (h : entryFilename k pre = entryFilename k' pre) : k = k' := by
  rw [entryFilename, entryFilename] at h
  exact List.append_cancel_left (List.append_cancel_right (List.append_cancel_left h))

theorem conf_suffix_entryFilename : ".conf".toList <:+ entryFilename k pre := by
  rw [entryFilename, ← List.append_assoc]
  exact List.suffix_append _ _

/-! ## The rendered entry -/

/-- A template that managed entries can be cloned from: its values were read from a file, and its
name does not look like the rest of a header. -/
structure Legible (t : LoaderEntry) : Prop where
  clean : ∀ p ∈ t.lines, Clean p.2
  name : OneLine t.filename
  noRole : ¬ ", role: ".toList <:+: t.filename

/-- What `render_entry` is given besides the template. -/
structure Renderable (k role title : Text) (version : Option Text) : Prop where
  kernel : KernelName k
  role : RoleName role
  title : OneLine title
  version : ∀ v, version = some v → OneLine v

variable {tk : Text}

theorem Legible.clean_get (ht : Legible e) {key : String} {v : Text} (h : e.get key = some v) :
    Clean v :=
  ht.clean _ (LoaderEntry.mem_of_get h)

theorem Legible.oneLine_truthy (ht : Legible e) {key : String} {v : Text}
    (h : truthy (e.get key) = some v) : OneLine v :=
  (ht.clean_get (truthy_eq_some h).1).1

theorem dirPart_subset (path : Text) : dirPart path ⊆ path :=
  (List.rdropWhile_prefix _ path).subset

theorem KernelName.oneLine_vmlinuz (hk : KernelName k) : OneLine ("vmlinuz-".toList ++ k) :=
  OneLine.append (by decide) hk.oneLine

theorem KernelName.slash_vmlinuz (hk : KernelName k) : '/' ∉ "vmlinuz-".toList ++ k := fun h =>
  (List.mem_append.mp h).elim (by decide) hk.slash

theorem initramfs_eq (k : Text) (suffix : String) :
    initramfs k suffix = "initramfs-".toList ++ k ++ suffix.toList ++ ".img".toList := rfl

theorem KernelName.oneLine_initramfs (hk : KernelName k) : OneLine (initramfs k "") := by
  rw [initramfs_eq]
  exact ((OneLine.append (by decide) hk.oneLine).append (by decide)).append (by decide)

/-- A path with a new last part is stripped when the path and the new part are. -/
theorem clean_swapBasename {path b : Text} (hp : Clean path) (hb : OneLine b) (hne : b ≠ [])
    (hhead : ∀ c ∈ b.head?, isSpace c = false) (hlast : ∀ c ∈ b.getLast?, isSpace c = false) :
    Clean (swapBasename path b) := by
  refine ⟨(hp.1.of_subset (dirPart_subset path)).append hb, strip_eq_self_of (fun c hc => ?_)
    fun c hc => ?_⟩
  · rw [swapBasename, List.head?_append] at hc
    cases hd : dirPart path with
    | nil =>
      rw [hd] at hc
      exact hhead c hc
    | cons d ds =>
      rw [hd] at hc
      obtain rfl := Option.some.inj hc
      -- the path starts with the same character, and it is stripped
      have hpre : d :: ds <+: path := hd ▸ List.rdropWhile_prefix _ path
      obtain ⟨w, hw⟩ := hpre
      have hstrip := hp.2
      rw [← hw, List.cons_append] at hstrip
      by_contra hsp
      rw [strip_eq, List.dropWhile_cons_of_pos (Bool.eq_true_of_not_eq_false hsp)] at hstrip
      have hlen := congrArg List.length hstrip
      have h₁ := (List.rdropWhile_prefix isSpace ((ds ++ w).dropWhile isSpace)).length_le
      have h₂ := (@List.dropWhile_suffix _ (ds ++ w) isSpace).length_le
      rw [List.length_cons] at hlen
      omega
  · rw [swapBasename, List.getLast?_append] at hc
    cases hb' : b.getLast? with
    | none => exact absurd (List.getLast?_eq_none_iff.mp hb') hne
    | some d =>
      rw [hb'] at hc
      obtain rfl := Option.some.inj hc
      exact hlast _ hb'

theorem clean_linuxPath (ht : Legible e) (hk : KernelName k) : Clean (linuxPath e k) := by
  have hpath : Clean ((truthy (e.get "linux")).getD ['/']) := by
    cases hl : truthy (e.get "linux") with
    | none => exact ⟨by decide, by decide⟩
    | some v => exact ht.clean_get (truthy_eq_some hl).1
  refine clean_swapBasename hpath hk.oneLine_vmlinuz ?_ (fun c hc => ?_) fun c hc => ?_
  · exact fun h => hk.ne_nil (List.append_eq_nil_iff.mp h).2
  · obtain rfl := Option.some.inj hc
    rfl
  · rw [List.getLast?_append_of_ne_nil _ hk.ne_nil] at hc
    exact hk.last c hc

theorem clean_swapInitrd (hk : KernelName k) {v : Text} (hv : Clean v) :
    Clean (swapInitrd tk k v) := by
  rw [swapInitrd]
  split_ifs
  · refine clean_swapBasename hv hk.oneLine_initramfs ?_ (fun c hc => ?_) fun c hc => ?_
    · exact fun h => absurd (List.append_eq_nil_iff.mp h).2 (by decide)
    · rw [initramfs_eq] at hc
      obtain rfl := Option.some.inj hc
      rfl
    · rw [initramfs_eq, List.getLast?_append_of_ne_nil _ (by decide)] at hc
      obtain rfl := Option.some.inj hc
      rfl
  · exact hv

theorem baseName_linuxPath (hk : KernelName k) :
    baseName (linuxPath e k) = "vmlinuz-".toList ++ k :=
  baseName_dirPart_append hk.slash_vmlinuz _

theorem fieldKeys : ∀ key ∈ ["title", "sort-key", "version", "machine-id", "architecture", "linux",
    "initrd", "options"], FieldKey key := by
  intro key hkey
  simp only [List.mem_cons, List.not_mem_nil, or_false] at hkey
  rcases hkey with rfl | rfl | rfl | rfl | rfl | rfl | rfl | rfl <;>
    exact ⟨by decide, by decide, by decide⟩

/-- Every line of a rendered entry is read back. -/
theorem field_renderFields (ht : Legible e) (h : Renderable k role title version) :
    ∀ f ∈ renderFields e tk k title version, Field f := by
  intro f hf
  simp only [renderFields, List.mem_append, List.mem_singleton, Option.mem_toList,
    Option.map_eq_some_iff, List.mem_filterMap, List.mem_map] at hf
  rcases hf with (((((rfl | ⟨v, hv, rfl⟩) | ⟨v, hv, rfl⟩) | ⟨key, hkey, v, hv, rfl⟩) | rfl) |
    ⟨v, hv, rfl⟩) | ⟨v, hv, rfl⟩
  · exact ⟨fieldKeys _ (by simp), h.title⟩
  · exact ⟨fieldKeys _ (by simp), ht.oneLine_truthy hv⟩
  · refine ⟨fieldKeys _ (by simp), ?_⟩
    rw [shownVersion] at hv
    split_ifs at hv
    exact h.version v (truthy_eq_some hv).1
  · refine ⟨fieldKeys _ ?_, ht.oneLine_truthy hv⟩
    rcases List.mem_cons.mp hkey with rfl | hkey
    · simp
    · rw [List.mem_singleton.mp hkey]
      simp
  · exact ⟨fieldKeys _ (by simp), (clean_linuxPath ht h.kernel).1⟩
  · exact ⟨fieldKeys _ (by simp),
      (clean_swapInitrd h.kernel (ht.clean _ (LoaderEntry.mem_of_getAll hv))).1⟩
  · exact ⟨fieldKeys _ (by simp), (ht.clean _ (LoaderEntry.mem_of_getAll hv)).1⟩

/-- **The round trip** of a managed entry. -/
theorem parseEntry_renderEntry (ht : Legible e) (h : Renderable k role title version) :
    parseEntry filename (renderEntry e tk k role title version) =
      ⟨filename, (renderFields e tk k title version).map fun f => (f.1.toList, strip f.2),
        some (headerLine e.filename role)⟩ :=
  parseEntry_fields (headerLine_oneLine ht.name h.role) strip_headerLine headerLine_head
    (field_renderFields ht h)

theorem find_linux : (renderFields e tk k title version).find? (fun f => f.1 = "linux") =
    some ("linux", linuxPath e k) := by
  rw [renderFields]
  cases truthy (e.get "sort-key") <;> cases shownVersion e version <;>
    cases hm : truthy (e.get "machine-id") <;> cases ha : truthy (e.get "architecture") <;>
      simp [hm, ha, -List.find?_filterMap]

theorem find_version : (renderFields e tk k title version).find? (fun f => f.1 = "version") =
    (shownVersion e version).map fun v => ("version", v) := by
  rw [renderFields]
  cases truthy (e.get "sort-key") <;> cases shownVersion e version <;>
    cases hm : truthy (e.get "machine-id") <;> cases ha : truthy (e.get "architecture") <;>
      simp [hm, ha, -List.find?_filterMap]

/-- The paths of a managed entry: the kernel, and the initrds. -/
def references (template : LoaderEntry) (templateKernel kernel : Text) : List Text :=
  linuxPath template kernel :: (template.getAll "initrd").map (swapInitrd templateKernel kernel)

theorem filter_references :
    ((renderFields e tk k title version).filter fun f => f.1 = "linux" ∨ f.1 = "initrd").map
      Prod.snd = references e tk k := by
  have hinit : ∀ vs : List Text, ((vs.map fun v => ("initrd", swapInitrd tk k v)).filter
      fun f => f.1 = "linux" ∨ f.1 = "initrd").map Prod.snd = vs.map (swapInitrd tk k) := by
    intro vs
    rw [List.filter_eq_self.mpr, List.map_map]
    · rfl
    · intro f hf
      obtain ⟨v, -, rfl⟩ := List.mem_map.mp hf
      rfl
  have hopts : ∀ vs : List Text, (vs.map fun v => ("options", v)).filter
      (fun f => f.1 = "linux" ∨ f.1 = "initrd") = [] := by
    intro vs
    refine List.filter_eq_nil_iff.mpr fun f hf => ?_
    obtain ⟨v, -, rfl⟩ := List.mem_map.mp hf
    simp
  rw [renderFields, List.filter_append, List.filter_append, hopts, List.append_nil, List.map_append,
    hinit, references]
  cases truthy (e.get "sort-key") <;> cases shownVersion e version <;>
    cases hm : truthy (e.get "machine-id") <;> cases ha : truthy (e.get "architecture") <;>
      simp [hm, ha]

section Rendered

variable (ht : Legible e) (h : Renderable k role title version)
include ht h

theorem get_linux_renderEntry :
    (parseEntry filename (renderEntry e tk k role title version)).get "linux" =
      some (linuxPath e k) := by
  rw [parseEntry_renderEntry ht h, get_fields, find_linux, Option.map_some,
    (clean_linuxPath ht h.kernel).2]

/-- A rendered entry boots its kernel. -/
theorem linuxBasename_renderEntry :
    (parseEntry filename (renderEntry e tk k role title version)).linuxBasename =
      some ("vmlinuz-".toList ++ k) := by
  have hne : linuxPath e k ≠ [] := fun hnil => h.kernel.ne_nil
    (List.append_eq_nil_iff.mp (List.append_eq_nil_iff.mp hnil).2).2
  obtain ⟨c, path, hpath⟩ := List.exists_cons_of_ne_nil hne
  rw [LoaderEntry.linuxBasename, get_linux_renderEntry ht h, ← baseName_linuxPath h.kernel, hpath]

theorem bootsKernel_renderEntry {k' : Text} :
    bootsKernel (parseEntry filename (renderEntry e tk k role title version)) k' = true ↔
      k' = k := by
  rw [bootsKernel, linuxBasename_renderEntry ht h, decide_eq_true_iff, Option.some_inj,
    List.append_cancel_left_eq]
  exact eq_comm

theorem managedKernel_renderEntry :
    managedKernel (parseEntry filename (renderEntry e tk k role title version)) = some k := by
  rw [managedKernel, linuxBasename_renderEntry ht h, Option.map_some,
    if_pos (List.isPrefixOf_iff_prefix.mpr (List.prefix_append _ _))]
  exact congrArg some (List.drop_left' rfl)

theorem parseManagedHeader_renderEntry :
    parseManagedHeader (parseEntry filename (renderEntry e tk k role title version)).header =
      some ⟨if e.filename = [] then none else some e.filename, role⟩ := by
  rw [parseEntry_renderEntry ht h]
  exact parseManagedHeader_headerLine ht.noRole ht.name h.role

/-- A rendered entry under its own name is sysforge's. -/
theorem isManaged_renderEntry (hpre : ValidPrefix pre) :
    isManaged (parseEntry (entryFilename k pre) (renderEntry e tk k role title version)) = true := by
  rw [isManaged, parseManagedHeader_renderEntry ht h, Bool.and_eq_true]
  exact ⟨isSysforgeName_entry h.kernel hpre, rfl⟩

theorem get_version_renderEntry :
    (parseEntry filename (renderEntry e tk k role title version)).get "version" =
      (shownVersion e version).map strip := by
  rw [parseEntry_renderEntry ht h, get_fields, find_version, Option.map_map]
  rfl

theorem references_renderEntry :
    (((parseEntry filename (renderEntry e tk k role title version)).lines.filter fun p =>
      p.1 = "linux".toList ∨ p.1 = "initrd".toList).map Prod.snd) = references e tk k := by
  rw [parseEntry_renderEntry ht h, ← @filter_references k title e version tk,
    List.filter_map, List.map_map]
  have hkeys : ((fun p : Text × Text => decide (p.1 = "linux".toList ∨ p.1 = "initrd".toList)) ∘
      fun f : String × Text => (f.1.toList, strip f.2)) =
      fun f => decide (f.1 = "linux" ∨ f.1 = "initrd") := by
    funext f
    simp only [Function.comp_apply, String.toList_inj]
  rw [hkeys]
  refine List.map_congr_left fun f hf => ?_
  -- the values are those of `references`, which are stripped
  have hmem : f.2 ∈ references e tk k := by
    rw [← @filter_references k title e version tk]
    exact List.mem_map_of_mem hf
  rcases List.mem_cons.mp hmem with hl | hi
  · change strip f.2 = f.2
    rw [hl, (clean_linuxPath ht h.kernel).2]
  · obtain ⟨v, hv, hvf⟩ := List.mem_map.mp hi
    change strip f.2 = f.2
    rw [← hvf, (clean_swapInitrd h.kernel (ht.clean _ (LoaderEntry.mem_of_getAll hv))).2]

end Rendered

end Sysforge.Boot
