import Sysforge.Toml.Print

/-!
# Documents made of sections

The state files are sequences of sections: a table header and the pairs under it. Reading one is
`Doc.readSection`; with distinct headers and no header below a frozen key, reading a list of
sections only updates the dictionary, section by section (`readSections_eq`). The sections of one
parent table build it entry by entry (`applyAll_new`, `applyAll_prefixed`).
-/

namespace Sysforge.Toml

/-! ## Updates of a nest -/

theorem set_set {β : Type*} (k : String) (v w : β) (t : List (String × β)) :
    Assoc.set k w (Assoc.set k v t) = Assoc.set k w t := by
  induction t with
  | nil => simp [Assoc.set]
  | cons p t ih => by_cases h : p.1 = k <;> simp [Assoc.set, h, ih]

theorem lookup_set_self {β : Type*} (k : String) (v : β) (t : List (String × β)) :
    (Assoc.set k v t).lookup k = some v := by
  rw [Assoc.lookup_set, if_pos rfl]

/-- Two updates of one nest are one. -/
theorem updateNest_bind (lists : Bool) (ks : Key) (f g : Table → Option Table) (t : Table) :
    (updateNest lists ks f t).bind (updateNest lists ks g) =
      updateNest lists ks (fun u => (f u).bind g) t := by
  induction ks generalizing t with
  | nil => rfl
  | cons k ks ih =>
    have key : ∀ (n : Table) (wrap : Table → Value)
        (_ : ∀ n', updateNest lists (k :: ks) g (Assoc.set k (wrap n') t) =
          (updateNest lists ks g n').map fun m => Assoc.set k (wrap m) t),
        ((updateNest lists ks f n).map fun m => Assoc.set k (wrap m) t).bind
          (updateNest lists (k :: ks) g) =
        (updateNest lists ks (fun u => (f u).bind g) n).map fun m => Assoc.set k (wrap m) t := by
      intro n wrap hw
      rw [← ih n]
      cases updateNest lists ks f n with
      | none => rfl
      | some n' => exact hw n'
    have htable : ∀ n', updateNest lists (k :: ks) g (Assoc.set k (.table n') t) =
        (updateNest lists ks g n').map fun m => Assoc.set k (.table m) t := fun n' => by
      simp only [updateNest, lookup_set_self, set_set]
    rw [updateNest.eq_2, updateNest.eq_2]
    split
    · exact key [] .table htable
    · exact key _ .table htable
    · rename_i vs _
      split
      · rename_i n _
        exact key n (fun m => .array (vs.dropLast ++ [.table m])) fun n' => by
          simp only [updateNest, lookup_set_self, set_set, List.getLast?_append,
            List.getLast?_singleton, Option.some_or, List.dropLast_concat]
      · rfl
    · rfl

theorem updateNest_append (lists : Bool) (ks ls : Key) (f : Table → Option Table) (t : Table) :
    updateNest lists (ks ++ ls) f t = updateNest lists ks (updateNest lists ls f) t := by
  induction ks generalizing t with
  | nil => rfl
  | cons k ks ih => simp only [List.cons_append, updateNest, ih]

/-- A nest that is not there yet is created at the end. -/
theorem updateNest_new {k : String} {t : Table} (h : k ∉ Assoc.keys t)
    (f : Table → Option Table) :
    updateNest true [k] f t = (f []).map fun n => t ++ [(k, .table n)] := by
  simp only [updateNest, Assoc.lookup_eq_none.2 h, Assoc.set_of_notMem h]

/-! ## Sections -/

/-- A table header and the pairs under it. -/
structure Section where
  key : Key
  pairs : List (String × Value)

/-- Set pairs a nest must not hold yet, in order. -/
def putAll (ps : List (String × Value)) (t : Table) : Option Table :=
  ps.foldlM (fun t p => putNew p.1 p.2 t) t

theorem putAll_append {ps : List (String × Value)} {t : Table}
    (h : (Assoc.keys (t ++ ps)).Nodup) : putAll ps t = some (t ++ ps) := by
  induction ps generalizing t with
  | nil => simp [putAll]
  | cons p ps ih =>
    have hp : p.1 ∉ Assoc.keys t := by
      rw [Assoc.keys_append, List.nodup_append'] at h
      exact fun hm => h.2.2 hm (by simp)
    have h' : (Assoc.keys ((t ++ [p]) ++ ps)).Nodup := by simpa using h
    rw [putAll, List.foldlM_cons, putNew, if_neg (by simp [Assoc.lookup_eq_none.2 hp]),
      Assoc.set_of_notMem hp]
    exact (ih h').trans (by simp)

namespace Section

/-- What a section does to the dictionary. -/
def apply (s : Section) (t : Table) : Option Table := updateNest true s.key (putAll s.pairs) t

/-- What sections in order do to the dictionary. -/
def applyAll (ss : List Section) (t : Table) : Option Table := ss.foldlM (fun t s => s.apply t) t

@[simp] theorem applyAll_nil (t : Table) : applyAll [] t = some t := rfl

theorem applyAll_cons (s : Section) (ss : List Section) (t : Table) :
    applyAll (s :: ss) t = (s.apply t).bind (applyAll ss) := rfl

theorem applyAll_append {ss ss' : List Section} {t t' : Table} (h : applyAll ss t = some t') :
    applyAll (ss ++ ss') t = applyAll ss' t' := by
  rw [applyAll, applyAll, List.foldlM_append, ← applyAll, h]
  rfl

/-- The keys a section freezes. -/
def freezes (s : Section) : List Key :=
  (s.pairs.filter fun p => p.2.isNested).map fun p => s.key ++ [p.1]

/-- A section whose header lies below `pre`. -/
def prefixed (pre : Key) (s : Section) : Section := ⟨pre ++ s.key, s.pairs⟩

/-- The section of an entry `name` below `pre`. -/
def under (pre : Key) (p : String × List (String × Value)) : Section := ⟨pre ++ [p.1], p.2⟩

end Section

/-- The table an entry becomes. -/
def entry (p : String × List (String × Value)) : String × Value := (p.1, .table p.2)

theorem keys_map_entry (l : List (String × List (String × Value))) :
    Assoc.keys (l.map entry) = Assoc.keys l := by
  simp [Assoc.keys, entry, Function.comp_def]

/-- The headers below one parent are as distinct as the names. -/
theorem nodup_key_under (pre : Key) {l : List (String × List (String × Value))}
    (h : (Assoc.keys l).Nodup) : ((l.map (Section.under pre)).map Section.key).Nodup := by
  have hmap : (l.map (Section.under pre)).map Section.key =
      (Assoc.keys l).map fun n => pre ++ [n] := by
    simp [Assoc.keys, Section.under, Function.comp_def]
  rw [hmap]
  exact h.map fun m n hmn => by simpa using hmn

/-- The sections of new entries append them. -/
theorem applyAll_new {l : List (String × List (String × Value))} {t : Table}
    (h : (Assoc.keys l).Nodup) (ht : ∀ k ∈ Assoc.keys l, k ∉ Assoc.keys t)
    (hp : ∀ p ∈ l, (Assoc.keys p.2).Nodup) :
    Section.applyAll (l.map (Section.under [])) t = some (t ++ l.map entry) := by
  induction l generalizing t with
  | nil => simp
  | cons p l ih =>
    rw [Assoc.keys_cons, List.nodup_cons] at h
    have hk : p.1 ∉ Assoc.keys t := ht _ List.mem_cons_self
    have happly : Section.apply (Section.under [] p) t = some (t ++ [entry p]) := by
      rw [Section.apply, Section.under, List.nil_append, updateNest_new hk,
        putAll_append (by simpa using hp p List.mem_cons_self)]
      rfl
    have ht' : ∀ k ∈ Assoc.keys l, k ∉ Assoc.keys (t ++ [entry p]) := fun k hk hm => by
      rcases List.mem_append.1 (Assoc.keys_append _ _ ▸ hm) with hm | hm
      · exact ht k (List.mem_cons_of_mem _ hk) hm
      · exact h.1 (List.mem_singleton.1 hm ▸ hk)
    rw [List.map_cons, Section.applyAll_cons, happly]
    exact (ih h.2 ht' fun q hq => hp q (List.mem_cons_of_mem _ hq)).trans (by simp)

/-- The sections below one parent update it. -/
theorem applyAll_prefixed (pre : Key) {ss : List Section} (hs : ss ≠ []) (t : Table) :
    Section.applyAll (ss.map (Section.prefixed pre)) t =
      updateNest true pre (Section.applyAll ss) t := by
  have happly : ∀ s : Section, (s.prefixed pre).apply = updateNest true pre s.apply := fun s => by
    funext t
    simp only [Section.apply, Section.prefixed, updateNest_append]
    rfl
  induction ss generalizing t with
  | nil => exact absurd rfl hs
  | cons s ss ih =>
    by_cases hs' : ss = []
    · subst hs'
      have hsingle : ∀ (s : Section), Section.applyAll [s] = s.apply := fun s =>
        funext fun u => Option.bind_fun_some _
      rw [List.map_singleton, hsingle, hsingle, happly]
    · rw [List.map_cons, Section.applyAll_cons, happly, funext (Section.applyAll_cons s ss),
        ← updateNest_bind]
      exact congrArg (Option.bind _) (funext (ih hs'))

theorem map_under (pre : Key) (l : List (String × List (String × Value))) :
    l.map (Section.under pre) = (l.map (Section.under [])).map (Section.prefixed pre) := by
  simp [Section.prefixed, Section.under, Function.comp_def]

/-- The table of the entries below one parent, absent when there are none. -/
def spaceTable (k : String) (l : List (String × List (String × Value))) : Table :=
  if l = [] then [] else [(k, .table (l.map entry))]

theorem mem_keys_spaceTable {k k' : String} {l : List (String × List (String × Value))}
    (h : k' ∈ Assoc.keys (spaceTable k l)) : k' = k := by
  unfold spaceTable at h
  split_ifs at h
  · cases h
  · exact List.mem_singleton.1 h

/-- The sections below one new parent append its table. -/
theorem applyAll_space {k : String} {l : List (String × List (String × Value))} {t : Table}
    (hk : k ∉ Assoc.keys t) (h : (Assoc.keys l).Nodup) (hp : ∀ p ∈ l, (Assoc.keys p.2).Nodup) :
    Section.applyAll (l.map (Section.under [k])) t =
      some (t ++ spaceTable k l) := by
  by_cases hl : l = []
  · simp [hl, spaceTable]
  · rw [map_under, applyAll_prefixed [k] (by simpa using hl), updateNest_new hk,
      applyAll_new h (by simp) hp,
      spaceTable, if_neg hl]
    rfl

/-! ## Reading sections -/

/-- Read one section. -/
def Doc.readSection (d : Doc) (s : Section) : Option Doc :=
  (d.finalize.openTable s.key).bind fun d => s.pairs.foldlM (fun d p => d.addPair [p.1] p.2) d

/-- Read sections in order. -/
def Doc.readSections (d : Doc) (ss : List Section) : Option Doc := ss.foldlM Doc.readSection d

theorem not_frozen_of_longer {d : Doc} {k : Key} {x : String} (h : d.isFrozen k = false) (v : Value) :
    Doc.isFrozen { d with frozen := if v.isNested then d.frozen ++ [k ++ [x]] else d.frozen } k =
      false := by
  have hx : (k ++ [x]).isPrefixOf k = false := by
    by_contra hpre
    rw [Bool.not_eq_false, List.isPrefixOf_iff_prefix] at hpre
    have := hpre.length_le
    rw [List.length_append, List.length_singleton] at this
    omega
  rw [Doc.isFrozen] at h ⊢
  cases v.isNested
  · simpa using h
  · simp only [if_true, List.any_append, h, List.any_cons, hx, List.any_nil, Bool.or_false]

/-- An updated nest is there: updating it by nothing changes nothing. -/
theorem updateNest_some_of_eq {k : Key} {f : Table → Option Table} {t t' : Table}
    (h : updateNest true k f t = some t') : updateNest true k some t' = some t' := by
  have hf : (fun u => (f u).bind some) = f := funext fun u => Option.bind_fun_some _
  have := updateNest_bind true k f some t
  rw [h, Option.bind_some, hf, h] at this
  exact this

theorem addPair_single {d : Doc} (h : d.isFrozen d.header = false) (k : String) (v : Value) :
    d.addPair [k] v = (updateNest true d.header (putNew k v) d.data).map fun data => { d with
      data := data
      frozen := if v.isNested then d.frozen ++ [d.header ++ [k]] else d.frozen } := by
  simp [Doc.addPair, Doc.containers, splitKey, h]

/-- The pairs under an open header. -/
theorem foldlM_addPair {ps : List (String × Value)} {d : Doc} (h : d.isFrozen d.header = false)
    (ho : updateNest true d.header some d.data = some d.data) :
    ps.foldlM (fun d p => d.addPair [p.1] p.2) d =
      (updateNest true d.header (putAll ps) d.data).map fun data => { d with
        data := data
        frozen := d.frozen ++ (Section.freezes ⟨d.header, ps⟩) } := by
  induction ps generalizing d with
  | nil =>
    rw [show putAll [] = some from rfl, ho]
    simp [Section.freezes]
  | cons p ps ih =>
    rw [List.foldlM_cons, addPair_single h,
      show putAll (p :: ps) = fun u => (putNew p.1 p.2 u).bind (putAll ps) from rfl,
      ← updateNest_bind]
    cases hu : updateNest true d.header (putNew p.1 p.2) d.data with
    | none => rfl
    | some t =>
      refine (ih (d := { d with data := t, frozen := _ }) (not_frozen_of_longer (x := p.1) h p.2)
        (updateNest_some_of_eq hu)).trans ?_
      rw [Option.bind_some]
      congr 1
      funext data
      cases hv : p.2.isNested <;> simp [Section.freezes, hv]

/-- Reading a section under a fresh header that nothing froze. -/
theorem readSection_eq {d : Doc} {s : Section} (hp : d.pending = [])
    (he : s.key ∉ d.explicitNest) (hf : d.isFrozen s.key = false) :
    d.readSection s = (s.apply d.data).map fun data => { d with
      data := data
      header := s.key
      explicitNest := d.explicitNest ++ [s.key]
      frozen := d.frozen ++ s.freezes } := by
  have hopen : d.finalize.openTable s.key = (updateNest true s.key some d.data).map fun data =>
      { d with data := data, header := s.key, explicitNest := d.explicitNest ++ [s.key] } := by
    have he' : d.explicitNest.contains s.key = false := by simpa using he
    simp only [Doc.isFrozen] at hf
    simp only [Doc.finalize, Doc.openTable, Doc.isExplicit, Doc.isFrozen, hp, List.append_nil, he',
      hf, Bool.or_self, Bool.false_eq_true, if_false]
  have hsplit : s.apply d.data =
      (updateNest true s.key some d.data).bind (updateNest true s.key (putAll s.pairs)) := by
    rw [updateNest_bind]
    rfl
  rw [Doc.readSection, hopen, hsplit]
  cases hu : updateNest true s.key some d.data with
  | none => rfl
  | some t =>
    exact foldlM_addPair
      (d := { d with data := t, header := s.key, explicitNest := d.explicitNest ++ [s.key] })
      hf (updateNest_some_of_eq hu)

/-- **Reading sections only updates the dictionary**, when no header is repeated and none lies
below a key some section froze. -/
theorem readSections_eq {ss : List Section} {d : Doc} {t : Table} (hp : d.pending = [])
    (he : ∀ s ∈ ss, s.key ∉ d.explicitNest) (hf : ∀ s ∈ ss, d.isFrozen s.key = false)
    (hn : (ss.map Section.key).Nodup)
    (hz : ∀ s ∈ ss, ∀ k ∈ s.freezes, ∀ s' ∈ ss, k.isPrefixOf s'.key = false)
    (h : Section.applyAll ss d.data = some t) :
    ∃ d', d.readSections ss = some d' ∧ d'.data = t := by
  induction ss generalizing d with
  | nil => exact ⟨d, rfl, Option.some_inj.1 h⟩
  | cons s ss ih =>
    rw [Section.applyAll_cons] at h
    obtain ⟨t', ht', h⟩ := Option.bind_eq_some_iff.1 h
    rw [List.map_cons, List.nodup_cons] at hn
    have hread := readSection_eq hp (he s List.mem_cons_self) (hf s List.mem_cons_self)
    rw [ht', Option.map_some] at hread
    obtain ⟨d', hd', rfl⟩ := ih (d := { d with
        data := t', header := s.key, explicitNest := d.explicitNest ++ [s.key]
        frozen := d.frozen ++ s.freezes }) hp
      (fun s' hs' hm => by
        rcases List.mem_append.1 hm with hm | hm
        · exact he s' (List.mem_cons_of_mem _ hs') hm
        · exact hn.1 (List.mem_singleton.1 hm ▸ List.mem_map_of_mem hs'))
      (fun s' hs' => by
        have := hf s' (List.mem_cons_of_mem _ hs')
        rw [Doc.isFrozen] at this ⊢
        rw [List.any_append, this, Bool.false_or, List.any_eq_false]
        intro k hk
        rw [hz s List.mem_cons_self k hk s' (List.mem_cons_of_mem _ hs')]
        exact Bool.false_ne_true)
      hn.2
      (fun s' hs' k hk s'' hs'' => hz s' (List.mem_cons_of_mem _ hs') k hk s''
        (List.mem_cons_of_mem _ hs''))
      h
    refine ⟨d', ?_, rfl⟩
    rw [Doc.readSections, List.foldlM_cons, hread]
    exact hd'

/-! ## The text of sections -/

/-- A pair line: the texts of key and value with what they denote. -/
structure PairText where
  key : Text
  value : Text
  name : String
  val : Value

theorem readsLines_pairs {ls : List PairText} (h : ∀ l ∈ ls, IsKeyPart l.key l.name ∧
    IsValue l.value l.val) {d d' : Doc}
    (hd : (ls.map fun l => (l.name, l.val)).foldlM (fun d p => d.addPair [p.1] p.2) d = some d') :
    ReadsLines (ls.map fun l => pairLine l.key l.value) d d' := by
  induction ls generalizing d with
  | nil =>
    obtain rfl : d = d' := Option.some_inj.1 hd
    exact .nil d
  | cons l ls ih =>
    rw [List.map_cons, List.foldlM_cons] at hd
    obtain ⟨d'', h'', hd⟩ := Option.bind_eq_some_iff.1 hd
    obtain ⟨hk, hv⟩ := h l List.mem_cons_self
    exact .cons (readsLine_pair hk hv h'')
      (ih (fun m hm => h m (List.mem_cons_of_mem _ hm)) hd)

/-- A section with its text: the parts of its header and its pairs. -/
structure SectionText where
  parts : List (Text × String)
  pairs : List PairText

namespace SectionText

/-- The lines of a section: its header, its pairs and a blank line. -/
def lines (s : SectionText) : List Text :=
  headerLine (s.parts.map Prod.fst) :: (s.pairs.map fun l => pairLine l.key l.value) ++ [[]]

/-- The section a text denotes. -/
def denotes (s : SectionText) : Section :=
  ⟨s.parts.map Prod.snd, s.pairs.map fun l => (l.name, l.val)⟩

/-- The texts of a section denote what it says they do, and are legal. -/
structure Ok (s : SectionText) : Prop where
  parts : AreKeyParts s.parts
  ne_nil : s.parts ≠ []
  pairs : ∀ l ∈ s.pairs, IsKeyPart l.key l.name ∧ IsValue l.value l.val
  legal_parts : ∀ p ∈ s.parts, Legal p.1
  legal_pairs : ∀ l ∈ s.pairs, Legal l.key ∧ Legal l.value

/-- **A printed section is read as the section it denotes.** -/
theorem readsLines {s : SectionText} (hs : s.Ok) {d d' : Doc}
    (hd : d.readSection s.denotes = some d') : ReadsLines s.lines d d' := by
  obtain ⟨d'', h'', hd⟩ := Option.bind_eq_some_iff.1 hd
  exact .cons (readsLine_header hs.parts hs.ne_nil h'')
    ((readsLines_pairs hs.pairs hd).append (.cons (readsLine_blank _) (.nil _)))

theorem endsBlank (s : SectionText) : EndsBlank s.lines := by
  have h : EndsBlank [[]] := rfl
  exact h.prepend _

theorem legal_lines {s : SectionText} (hs : s.Ok) : ∀ l ∈ s.lines, Legal l := by
  intro l hl
  rw [lines, List.cons_append, List.mem_cons, List.mem_append, List.mem_map,
    List.mem_singleton] at hl
  rcases hl with rfl | ⟨p, hp, rfl⟩ | rfl
  · refine legal_headerLine fun t ht => ?_
    obtain ⟨p, hp, rfl⟩ := List.mem_map.1 ht
    exact hs.legal_parts p hp
  · exact legal_pairLine (hs.legal_pairs p hp).1 (hs.legal_pairs p hp).2
  · exact .nil

end SectionText

/-- A line that says nothing: blank or a comment. -/
def IsIntro (l : Text) : Prop :=
  (l = [] ∨ l.head? = some '#') ∧ ∀ c ∈ l, isLegal c ∧ c ≠ '\n'

instance (l : Text) : Decidable (IsIntro l) :=
  have := List.decidableBAll (fun c => isLegal c = true ∧ c ≠ '\n') l
  inferInstanceAs (Decidable (_ ∧ _))

/-- A block of a document: lines that say nothing, then sections. -/
structure Block where
  intro : List Text
  sections : List SectionText

namespace Block

/-- The lines of a block. -/
def lines (b : Block) : List Text := b.intro ++ b.sections.flatMap SectionText.lines

/-- The lines before the sections say nothing, and the sections denote what they say. -/
structure Ok (b : Block) : Prop where
  intro : ∀ l ∈ b.intro, IsIntro l
  sections : ∀ s ∈ b.sections, s.Ok

theorem readsLines_intro {ls : List Text} (h : ∀ l ∈ ls, IsIntro l) (d : Doc) :
    ReadsLines ls d d := by
  induction ls with
  | nil => exact .nil d
  | cons l ls ih =>
    refine .cons ?_ (ih fun m hm => h m (List.mem_cons_of_mem _ hm))
    obtain ⟨rfl | hhd, hl⟩ := h l List.mem_cons_self
    · exact readsLine_blank d
    · obtain ⟨cs, rfl⟩ := List.head?_eq_some_iff.1 hhd
      exact readsLine_comment (fun hn => (hl _ (List.mem_cons_of_mem _ hn)).2 rfl) d

theorem readsLines_sections {ss : List SectionText} (h : ∀ s ∈ ss, s.Ok) {d d' : Doc}
    (hd : d.readSections (ss.map SectionText.denotes) = some d') :
    ReadsLines (ss.flatMap SectionText.lines) d d' := by
  induction ss generalizing d with
  | nil =>
    obtain rfl : d = d' := Option.some_inj.1 hd
    exact .nil d
  | cons s ss ih =>
    rw [Doc.readSections, List.map_cons, List.foldlM_cons] at hd
    obtain ⟨d'', h'', hd⟩ := Option.bind_eq_some_iff.1 hd
    exact (SectionText.readsLines (h s List.mem_cons_self) h'').append
      (ih (fun s' hs' => h s' (List.mem_cons_of_mem _ hs')) hd)

theorem readsLines {b : Block} (hb : b.Ok) {d d' : Doc}
    (hd : d.readSections (b.sections.map SectionText.denotes) = some d') :
    ReadsLines b.lines d d' :=
  (readsLines_intro hb.intro d).append (readsLines_sections hb.sections hd)

theorem legal_lines {b : Block} (hb : b.Ok) : ∀ l ∈ b.lines, Legal l := by
  intro l hl
  rcases List.mem_append.1 hl with hl | hl
  · exact fun c hc => ((hb.intro l hl).2 c hc).1
  · obtain ⟨s, hs, hl⟩ := List.mem_flatMap.1 hl
    exact SectionText.legal_lines (hb.sections s hs) l hl

end Block

/-- **Printed blocks are read as the sections they denote.** -/
theorem readsLines_blocks {bs : List Block} (h : ∀ b ∈ bs, b.Ok) {d d' : Doc}
    (hd : d.readSections (bs.flatMap fun b => b.sections.map SectionText.denotes) = some d') :
    ReadsLines (bs.flatMap Block.lines) d d' := by
  induction bs generalizing d with
  | nil =>
    obtain rfl : d = d' := Option.some_inj.1 hd
    exact .nil d
  | cons b bs ih =>
    rw [Doc.readSections, List.flatMap_cons, List.foldlM_append] at hd
    obtain ⟨d'', h'', hd⟩ := Option.bind_eq_some_iff.1 hd
    exact (Block.readsLines (h b List.mem_cons_self) h'').append
      (ih (fun b' hb' => h b' (List.mem_cons_of_mem _ hb')) hd)

/-- The sections of a list of blocks. -/
def sectionsOf (bs : List Block) : List Section :=
  bs.flatMap fun b => b.sections.map SectionText.denotes

/-- **A document of printed blocks loads as the tables its sections build**, when no header is
repeated and none lies below a key some section froze. -/
theorem loads_blocks {bs : List Block} (h : ∀ b ∈ bs, b.Ok)
    (hb : EndsBlank (bs.flatMap Block.lines)) (hn : ((sectionsOf bs).map Section.key).Nodup)
    (hz : ∀ s ∈ sectionsOf bs, ∀ p ∈ s.pairs, p.2.isNested →
      ∀ s' ∈ sectionsOf bs, (s.key ++ [p.1]).isPrefixOf s'.key = false)
    {t : Table} (ht : Section.applyAll (sectionsOf bs) [] = some t) :
    loads (Text.joinLines (bs.flatMap Block.lines)) = some t := by
  obtain ⟨d, hd, rfl⟩ := readSections_eq (d := {}) rfl (fun _ _ => List.not_mem_nil)
    (fun _ _ => rfl) hn (fun s hs k hk => by
      obtain ⟨p, hp, rfl⟩ := List.mem_map.1 hk
      exact hz s hs p (List.mem_filter.1 hp).1 (List.mem_filter.1 hp).2) ht
  refine loads_of_reads (readsLines_blocks h hd) hb fun l hl => ?_
  obtain ⟨b, hb, hl⟩ := List.mem_flatMap.1 hl
  exact Block.legal_lines (h b hb) l hl

end Sysforge.Toml
