import Sysforge.Artifacts.Registry

/-!
# What the artifact operations keep

Beside the registry a story keeps, for each artifact, the content that was last deployed. In every
run that records its deployments, an operation without `--force` overwrites or deletes only live
content that is the managed copy or was last deployed, the managed copy changes only where the user
asks for it, and a deploy that succeeds leaves the live file equal to the managed copy.

A deploy does not record a removed artifact whose live file was put back by hand: the artifact is
`ok` without a deployed hash, the deploy returns early, and an edit of it then reads as a conflict.
-/

namespace Sysforge.Artifacts

/-- An operation, or an outside change of a live file: a write, or a deletion by `none`. -/
inductive Op (C : Type*)
  | adopt (src : Path) (cls : Option Class) (now : String)
  | edit (name : String) (data : C)
  | deploy (name : String) (force adoptLive : Bool) (now : String)
  | remove (name : String) (purge force : Bool)
  | external (path : Path) (data : Option C)

/-- The world, and the content last deployed of each artifact: what its last adoption or successful
deploy left as the live file, until it is removed. -/
structure Story (C H : Type*) where
  world : World C H
  last : String → Option C

section Model

variable {C H : Type*} [DecidableEq H]

/-- Where an operation succeeds, the content last deployed is `data` from now on. -/
def noteLast {α : Type*} (r : Except ArtifactError α) (last : String → Option C) (name : String)
    (data : Option C) : String → Option C :=
  match r with
  | .ok _ => Function.update last name data
  | .error _ => last

/-- The live file of a managed artifact. -/
def World.liveOf (w : World C H) (name : String) : Option C :=
  (w.entries.get name).bind fun art => w.live art.dest

/-- One step of a run. -/
def step (s : Setting C H) (t : Story C H) : Op C → Story C H
  | .adopt src cls now =>
    let r := adopt s t.world src cls now
    ⟨r.2, noteLast r.1 t.last src.name (t.world.live src)⟩
  | .edit name data => { t with world := (edit s t.world name data).2 }
  | .deploy name force adoptLive now =>
    let r := deploy s t.world name force adoptLive now
    ⟨r.2, noteLast r.1 t.last name (r.2.liveOf name)⟩
  | .remove name purge force =>
    let r := remove s t.world name purge force
    ⟨r.2, noteLast r.1 t.last name none⟩
  | .external path data => { t with world.live := Function.update t.world.live path data }

/-- A run from a host where nothing is managed. -/
def story (s : Setting C H) (live : Path → Option C) (ops : List (Op C)) : Story C H :=
  Run.run (step s) ⟨World.init live, fun _ => none⟩ ops

/-- The operation does not force: an outside change is none of the operations. -/
def Op.Unforced : Op C → Prop
  | .deploy _ force _ _ => force = false
  | .remove _ _ force => force = false
  | .external _ _ => False
  | _ => True

/-- The managed copy holds an edit not yet deployed, and the live file is the one last deployed. -/
def EditUndeployed (t : Story C H) (name : String) : Prop :=
  ∃ c d, t.world.content name = some c ∧ t.last name = some d ∧ c ≠ d ∧
    t.world.liveOf name = some d

/-- What one step keeps. -/
structure Keeps (s : Setting C H) (t : Story C H) (op : Op C) : Prop where
  /-- live content is overwritten or deleted only when it is the managed copy or last deployed -/
  live : op.Unforced → ∀ path c, t.world.live path = some c →
    (step s t op).world.live path ≠ some c →
    ∃ name art, t.world.entries.get name = some art ∧ art.dest = path ∧
      (t.world.content name = some c ∨ t.last name = some c)
  /-- a managed copy changes only by an edit, by `deploy --adopt-live` when it would not lose an
  edit to the file last deployed, and by a purge -/
  managed : ∀ name c, t.world.content name = some c →
    (step s t op).world.content name ≠ some c →
    (∃ data, op = .edit name data) ∨
      (∃ force now, op = .deploy name force true now) ∧ ¬ EditUndeployed t name ∨
      ∃ force, op = .remove name true force
  /-- a deploy that succeeds leaves the live file equal to the managed copy, and the status `ok` -/
  deployed : ∀ name force adoptLive now st, op = .deploy name force adoptLive now →
    (deploy s t.world name force adoptLive now).1 = .ok st →
    ∃ art data, (step s t op).world.entries.get name = some art ∧
      (step s t op).world.content name = some data ∧
      (step s t op).world.live art.dest = some data ∧ statusOf s (step s t op).world art = .ok

/-- The step records what it deploys: no deploy returns early on an artifact without a deployed
hash, one that was removed and whose live file was put back. -/
def Records (s : Setting C H) (t : Story C H) : Op C → Prop
  | .deploy name _ false _ => ∀ art, t.world.entries.get name = some art →
    art.deployedHash = none → statusOf s t.world art ≠ .ok
  | _ => True

end Model

/-! ## The status of the contents -/

section Status

variable {C H : Type*} [DecidableEq C] [DecidableEq H] {s : Setting C H} {w : World C H}
  {art : Artifact H} {c : C} {last live : Option C}

/-- The three-way comparison of the contents themselves: the managed copy, what was last deployed
and the live file. -/
def contentStatus (c : C) (last live : Option C) : Status :=
  match live with
  | none => .missing
  | some l =>
    match last with
    | none => if l = c then .ok else .conflict
    | some d =>
      if c = d then if l = d then .ok else .drifted
      else if l = d then .pending else .conflict

/-- An injective hash compares the contents. -/
theorem statusOf_eq (hs : Function.Injective s.hash) (hauth : art.authHash = s.hash c)
    (hdep : art.deployedHash = last.map s.hash) :
    statusOf s w art = contentStatus c last (w.live art.dest) := by
  rw [statusOf, hdep, hauth]
  cases w.live art.dest with
  | none => rfl
  | some l =>
    cases last with
    | none => simp only [Option.map_some, Option.map_none, contentStatus, hs.eq_iff]
    | some d =>
      simp only [Option.map_some, contentStatus, ne_eq, hs.eq_iff, decide_not, Bool.not_eq_true',
        decide_eq_false_iff_not, not_not]
      split_ifs <;> tauto

/-- A live file that is neither drifted nor in conflict is the managed copy or last deployed. -/
theorem attributable {l : C}
    (h : ¬ (contentStatus c last (some l) = .drifted ∨ contentStatus c last (some l) = .conflict)) :
    c = l ∨ last = some l := by
  cases last with
  | none =>
    rw [contentStatus] at h
    split_ifs at h with hl
    · exact .inl hl.symm
    · exact absurd (.inr rfl) h
  | some d =>
    rw [contentStatus] at h
    split_ifs at h with hc hl hl
    · exact .inl (hc.trans hl.symm)
    · exact absurd (.inl rfl) h
    · exact .inr (hl ▸ rfl)
    · exact absurd (.inr rfl) h

theorem contentStatus_pending {d : C} (h : c ≠ d) :
    contentStatus c (some d) (some d) = .pending := by
  rw [contentStatus, if_neg h, if_pos rfl]

theorem contentStatus_self : contentStatus c (some c) (some c) = .ok := by
  rw [contentStatus, if_pos rfl, if_pos rfl]

theorem contentStatus_ok {live : Option C} (h : contentStatus c last live = .ok) :
    live = some c := by
  cases live with
  | none => cases h
  | some l =>
    cases last with
    | none =>
      rw [contentStatus] at h
      split_ifs at h with hl
      rw [hl]
    | some d =>
      rw [contentStatus] at h
      split_ifs at h with hc hl
      rw [hl, hc]

end Status

/-! ## What one operation does -/

section Operations

variable {C H : Type*} {s : Setting C H} {w : World C H}

theorem adopt_cases (src : Path) (cls : Option Class) (now : String) :
    (∃ e, adopt s w src cls now = (.error e, w)) ∨
      ∃ data k, w.live src = some data ∧ w.entries.get src.name = none ∧
        adopt s w src cls now =
          (.ok ⟨src.name, src, k, s.hash data, some (s.hash data), some now⟩,
            { w with
              content := Function.update w.content src.name (some data)
              entries := w.entries.set src.name
                ⟨src.name, src, k, s.hash data, some (s.hash data), some now⟩ }) := by
  rw [adopt]
  cases cls.or (classForPath s src) with
  | none => exact .inl ⟨_, rfl⟩
  | some k =>
    dsimp only
    split_ifs
    · exact .inl ⟨_, rfl⟩
    cases hlive : w.live src with
    | none => exact .inl ⟨_, rfl⟩
    | some data =>
      cases hget : w.entries.get src.name with
      | some art => exact .inl ⟨_, rfl⟩
      | none => exact .inr ⟨data, k, rfl, rfl, rfl⟩

/-- Saving `data` as the managed copy and hashing it again. -/
theorem rehash_update {name : String} {art : Artifact H} (data : C)
    (hget : w.entries.get name = some art) :
    rehash s { w with content := Function.update w.content name (some data) } name =
      (.ok { art with authHash := s.hash data },
        { w with
          content := Function.update w.content name (some data)
          entries := w.entries.set name { art with authHash := s.hash data } }) := by
  rw [rehash]
  simp only [hget, Function.update_self]

theorem edit_cases (name : String) (data : C) :
    (∃ e, edit s w name data = (.error e, w)) ∨
      ∃ art, w.entries.get name = some art ∧
        edit s w name data =
          (.ok { art with authHash := s.hash data },
            { w with
              content := Function.update w.content name (some data)
              entries := w.entries.set name { art with authHash := s.hash data } }) := by
  rw [edit]
  cases hget : w.entries.get name with
  | none => exact .inl ⟨_, rfl⟩
  | some art => exact .inr ⟨art, rfl, rehash_update data hget⟩

/-- A deploy has written `data`: it is both files of the artifact, and both hashes are its. -/
structure Pushed (s : Setting C H) (w w' : World C H) (name : String) (art : Artifact H)
    (data : C) (now : String) : Prop where
  content : w'.content = Function.update w.content name (some data)
  live : w'.live = Function.update w.live art.dest (some data)
  entries : ∀ n, w'.entries.get n = if n = name then
    some { art with
      authHash := s.hash data, deployedHash := some (s.hash data), deployedAt := some now }
    else w.entries.get n

theorem deployRefusal_eq_none {name : String} {force adoptLive : Bool} {status : Status}
    (h : deployRefusal name force adoptLive status = none) :
    (adoptLive = true → status ≠ .pending) ∧ (adoptLive = true → status ≠ .missing) ∧
      (force = false → adoptLive = false → ¬ (status = .drifted ∨ status = .conflict)) := by
  rw [deployRefusal] at h
  split_ifs at h with hpend hmiss hdiff
  refine ⟨fun ha hst => hpend ⟨ha, hst⟩, fun ha hst => hmiss ⟨ha, hst⟩,
    fun hf ha hst => hdiff ⟨hst, ?_⟩⟩
  simp [hf, ha]

theorem pushLive_found {name : String} {art : Artifact H} {data : C} (now : String)
    (hc : w.content name = some data) :
    pushLive s w name art .ok false now = (.ok .ok, w) := by
  rw [pushLive, hc]
  rfl

theorem pushLive_written {name : String} {art : Artifact H} {status : Status} {adoptLive : Bool}
    {data : C} (now : String) (hc : w.content name = some data)
    (hst : ¬ (status = .ok ∧ ¬ adoptLive)) :
    ∃ w', pushLive s w name art status adoptLive now = (.ok .ok, w') ∧
      Pushed s w w' name art data now := by
  rw [pushLive, hc]
  dsimp only
  rw [if_neg hst]
  refine ⟨_, rfl, ⟨?_, rfl, fun n => Dict.get_set _ _ _ _⟩⟩
  exact (Function.update_eq_self_iff.mpr hc.symm).symm

variable [DecidableEq H]

/-- A deploy refuses, finds the artifact `ok`, writes the managed copy or pulls the live file. -/
theorem deploy_cases (name : String) (force adoptLive : Bool) (now : String) :
    (∃ e, deploy s w name force adoptLive now = (.error e, w)) ∨
      ∃ art, w.entries.get name = some art ∧
        ((∃ data, adoptLive = false ∧ w.content name = some data ∧ statusOf s w art = .ok ∧
            deploy s w name force adoptLive now = (.ok .ok, w)) ∨
          ∃ data w', deploy s w name force adoptLive now = (.ok .ok, w') ∧
            Pushed s w w' name art data now ∧
            (adoptLive = false ∧ w.content name = some data ∧
                (force = false → ¬ (statusOf s w art = .drifted ∨ statusOf s w art = .conflict)) ∨
              adoptLive = true ∧ w.live art.dest = some data ∧ statusOf s w art ≠ .pending)) := by
  rw [deploy]
  by_cases hflags : force = true ∧ adoptLive = true
  · exact .inl ⟨.exclusive, if_pos hflags⟩
  rw [if_neg hflags]
  cases hget : w.entries.get name with
  | none => exact .inl ⟨_, rfl⟩
  | some art =>
    dsimp only
    cases href : deployRefusal name force adoptLive (statusOf s w art) with
    | some e => exact .inl ⟨e, rfl⟩
    | none =>
      obtain ⟨hpend, hmiss, hdiff⟩ := deployRefusal_eq_none href
      cases adoptLive with
      | false =>
        dsimp only
        rw [if_neg Bool.false_ne_true]
        cases hc : w.content name with
        | none => exact .inl ⟨.unreadable name, by rw [pushLive, hc]⟩
        | some data =>
          refine .inr ⟨art, rfl, ?_⟩
          by_cases hok : statusOf s w art = .ok
          · exact .inl ⟨data, rfl, rfl, hok, by rw [hok, pushLive_found now hc]⟩
          · obtain ⟨w', hw', hpush⟩ := pushLive_written now hc fun h => hok h.1
            exact .inr ⟨data, w', hw', hpush, .inl ⟨rfl, rfl, fun hf => hdiff hf rfl⟩⟩
      | true =>
        dsimp only
        rw [if_pos rfl]
        cases hlive : w.live art.dest with
        | none => exact absurd (by rw [statusOf, hlive]; rfl) (hmiss rfl)
        | some data =>
          rw [pullLive, hlive]
          dsimp only
          rw [rehash_update data hget]
          dsimp only
          obtain ⟨w', hw', hpush⟩ := @pushLive_written C H s
            { w with
              content := Function.update w.content name (some data)
              entries := w.entries.set name { art with authHash := s.hash data } }
            name { art with authHash := s.hash data } (statusOf s w art) true data now
            (Function.update_self ..) fun h => h.2 rfl
          refine .inr ⟨art, rfl, .inr ⟨data, w', hw', ⟨?_, hpush.live, fun n => ?_⟩,
            .inr ⟨rfl, hlive, hpend rfl⟩⟩⟩
          · rw [hpush.content, Function.update_idem]
          · rw [hpush.entries, Dict.get_set]
            split_ifs <;> rfl

theorem remove_cases (name : String) (purge force : Bool) :
    (∃ e, remove s w name purge force = (.error e, w)) ∨
      ∃ art, w.entries.get name = some art ∧
        (force = false → ¬ (statusOf s w art = .drifted ∨ statusOf s w art = .conflict)) ∧
        remove s w name purge force = (.ok (), if purge then
          ⟨w.entries.erase name, Function.update w.content name none,
            Function.update w.live art.dest none⟩
        else
          ⟨w.entries.set name { art with deployedHash := none, deployedAt := none }, w.content,
            Function.update w.live art.dest none⟩) := by
  rw [remove]
  cases hget : w.entries.get name with
  | none => exact .inl ⟨_, rfl⟩
  | some art =>
    dsimp only
    by_cases hst : (statusOf s w art = .drifted ∨ statusOf s w art = .conflict) ∧ ¬ force = true
    · exact .inl ⟨_, if_pos hst⟩
    rw [if_neg hst]
    refine .inr ⟨art, rfl, fun hf h => hst ⟨h, by simp [hf]⟩, ?_⟩
    cases purge <;> rfl

end Operations

/-! ## The hashes of the registry -/

section Invariant

variable {C H : Type*} {s : Setting C H} {t : Story C H} {op : Op C}

/-- One name: unmanaged without a managed copy, or managed with the hash of its managed copy and the
hash of the content last deployed. -/
def Tracked (s : Setting C H) : Option (Artifact H) → Option C → Option C → Prop
  | none, content, _ => content = none
  | some art, content, last =>
    ∃ c, content = some c ∧ art.authHash = s.hash c ∧ art.deployedHash = last.map s.hash

/-- The hashes of the registry are those of the contents. -/
def Inv (s : Setting C H) (t : Story C H) : Prop :=
  ∀ name, Tracked s (t.world.entries.get name) (t.world.content name) (t.last name)

theorem inv_init (live : Path → Option C) : Inv s ⟨World.init live, fun _ => none⟩ := fun _ => rfl

theorem Inv.managed (h : Inv s t) {name : String} {art : Artifact H}
    (hget : t.world.entries.get name = some art) :
    ∃ c, t.world.content name = some c ∧ art.authHash = s.hash c ∧
      art.deployedHash = (t.last name).map s.hash := by
  have hn := h name
  rwa [hget] at hn

theorem Inv.eq_some (h : Inv s t) {name : String} {c : C} (hc : t.world.content name = some c) :
    ∃ art, t.world.entries.get name = some art := by
  cases hget : t.world.entries.get name with
  | some art => exact ⟨art, rfl⟩
  | none =>
    have hn := h name
    rw [hget] at hn
    exact absurd (hn.symm.trans hc) nofun

theorem noteLast_error {α : Type*} (e : ArtifactError) (last : String → Option C) (name : String)
    (data : Option C) : noteLast (.error e : Except ArtifactError α) last name data = last := rfl

theorem noteLast_ok {α : Type*} (a : α) (last : String → Option C) (name : String)
    (data : Option C) :
    noteLast (.ok a : Except ArtifactError α) last name data = Function.update last name data := rfl

variable [DecidableEq H]

/-- The status of a tracked artifact is the comparison of its contents. -/
theorem Inv.statusOf_eq [DecidableEq C] (h : Inv s t) (hs : Function.Injective s.hash)
    {name : String} {art : Artifact H} {c : C} (hget : t.world.entries.get name = some art)
    (hc : t.world.content name = some c) :
    statusOf s t.world art = contentStatus c (t.last name) (t.world.live art.dest) := by
  obtain ⟨c', hc', hauth, hdep⟩ := h.managed hget
  obtain rfl := Option.some.inj (hc.symm.trans hc')
  exact Artifacts.statusOf_eq hs hauth hdep

theorem inv_adopt (h : Inv s t) (src : Path) (cls : Option Class) (now : String) :
    Inv s (step s t (.adopt src cls now)) := by
  intro n
  simp only [step]
  obtain ⟨e, he⟩ | ⟨data, k, hlive, -, hok⟩ := adopt_cases (s := s) (w := t.world) src cls now
  · rw [he]
    exact h n
  · rw [hok, noteLast_ok, hlive]
    dsimp only
    by_cases hn : n = src.name
    · subst hn
      rw [Dict.get_set, if_pos rfl, Function.update_self, Function.update_self]
      exact ⟨data, rfl, rfl, rfl⟩
    · rw [Dict.get_set, if_neg hn, Function.update_of_ne hn, Function.update_of_ne hn]
      exact h n

theorem inv_edit (h : Inv s t) (name : String) (data : C) :
    Inv s (step s t (.edit name data)) := by
  intro n
  simp only [step]
  obtain ⟨e, he⟩ | ⟨art, hget, hok⟩ := edit_cases (s := s) (w := t.world) name data
  · rw [he]
    exact h n
  · rw [hok]
    dsimp only
    by_cases hn : n = name
    · subst hn
      obtain ⟨c, -, -, hdep⟩ := h.managed hget
      rw [Dict.get_set, if_pos rfl, Function.update_self]
      exact ⟨data, rfl, rfl, hdep⟩
    · rw [Dict.get_set, if_neg hn, Function.update_of_ne hn]
      exact h n

theorem inv_remove (h : Inv s t) (name : String) (purge force : Bool) :
    Inv s (step s t (.remove name purge force)) := by
  intro n
  simp only [step]
  obtain ⟨e, he⟩ | ⟨art, hget, -, hok⟩ := remove_cases (s := s) (w := t.world) name purge force
  · rw [he]
    exact h n
  · obtain ⟨c, hc, hauth, -⟩ := h.managed hget
    rw [hok, noteLast_ok]
    dsimp only
    by_cases hn : n = name
    · subst hn
      rw [Function.update_self]
      cases purge with
      | true =>
        rw [if_pos rfl, Dict.get_erase, if_pos rfl]
        exact Function.update_self ..
      | false =>
        rw [if_neg Bool.false_ne_true, Dict.get_set, if_pos rfl]
        exact ⟨c, hc, hauth, rfl⟩
    · rw [Function.update_of_ne hn]
      cases purge with
      | true =>
        rw [if_pos rfl, Dict.get_erase, if_neg hn]
        dsimp only
        rw [Function.update_of_ne hn]
        exact h n
      | false =>
        rw [if_neg Bool.false_ne_true, Dict.get_set, if_neg hn]
        exact h n

theorem inv_deploy [DecidableEq C] (hs : Function.Injective s.hash) (h : Inv s t) (name : String)
    (force adoptLive : Bool) (now : String)
    (hrec : Records s t (.deploy name force adoptLive now)) :
    Inv s (step s t (.deploy name force adoptLive now)) := by
  intro n
  simp only [step]
  obtain ⟨e, he⟩ | ⟨art, hget, hcase⟩ :=
    deploy_cases (s := s) (w := t.world) name force adoptLive now
  · rw [he]
    exact h n
  obtain ⟨data, rfl, hc, hstat, hok⟩ | ⟨data, w', hok, hpush, -⟩ := hcase
  · rw [hok, noteLast_ok]
    by_cases hn : n = name
    · subst hn
      -- the artifact has a deployed hash, which is that of its live file
      obtain ⟨c, hc', hauth, hdep⟩ := h.managed hget
      have hnone : art.deployedHash ≠ none := fun h₀ => hrec art hget h₀ hstat
      rw [h.statusOf_eq hs hget hc'] at hstat
      have hlive := contentStatus_ok hstat
      rw [Function.update_self, World.liveOf, hget, Option.bind_some, hlive, hc']
      refine ⟨c, rfl, hauth, ?_⟩
      rw [hdep] at hnone ⊢
      cases hl : t.last n with
      | none => exact absurd (by rw [hl]; rfl) hnone
      | some d =>
        rw [hl, hlive, contentStatus] at hstat
        split_ifs at hstat with hcd
        rw [hcd]
    · rw [Function.update_of_ne hn]
      exact h n
  · rw [hok, noteLast_ok]
    dsimp only
    rw [hpush.entries, hpush.content]
    by_cases hn : n = name
    · subst hn
      rw [if_pos rfl, Function.update_self, Function.update_self, World.liveOf, hpush.entries,
        if_pos rfl, Option.bind_some, hpush.live, Function.update_self]
      exact ⟨data, rfl, rfl, rfl⟩
    · rw [if_neg hn, Function.update_of_ne hn, Function.update_of_ne hn]
      exact h n

/-- **The step lemma**: a step that records its deployment keeps the hashes. -/
theorem inv_step [DecidableEq C] (hs : Function.Injective s.hash) (h : Inv s t)
    (hrec : Records s t op) : Inv s (step s t op) := by
  cases op with
  | adopt src cls now => exact inv_adopt h src cls now
  | edit name data => exact inv_edit h name data
  | deploy name force adoptLive now => exact inv_deploy hs h name force adoptLive now hrec
  | remove name purge force => exact inv_remove h name purge force
  | external path data => exact h

/-! ## What a step keeps -/

theorem update_ne_some {α β : Type*} [DecidableEq α] {f : α → Option β} {a x : α} {v : Option β}
    {b : β} (hf : f x = some b) (hu : Function.update f a v x ≠ some b) : x = a ∧ v ≠ some b := by
  by_cases hx : x = a
  · subst hx
    rw [Function.update_self] at hu
    exact ⟨rfl, hu⟩
  · rw [Function.update_of_ne hx] at hu
    exact absurd hf hu

/-- A live file that may be overwritten without force is the managed copy or was last deployed. -/
theorem Inv.attributable [DecidableEq C] (h : Inv s t) (hs : Function.Injective s.hash)
    {name : String} {art : Artifact H} {c : C} (hget : t.world.entries.get name = some art)
    (hlive : t.world.live art.dest = some c)
    (hst : ¬ (statusOf s t.world art = .drifted ∨ statusOf s t.world art = .conflict)) :
    t.world.content name = some c ∨ t.last name = some c := by
  obtain ⟨m, hm, -⟩ := h.managed hget
  rw [h.statusOf_eq hs hget hm, hlive] at hst
  obtain rfl | hlast := Artifacts.attributable hst
  · exact .inl hm
  · exact .inr hlast

theorem live_kept [DecidableEq C] (h : Inv s t) (hs : Function.Injective s.hash)
    (hop : op.Unforced) {path : Path} {c : C} (hc : t.world.live path = some c)
    (hne : (step s t op).world.live path ≠ some c) :
    ∃ name art, t.world.entries.get name = some art ∧ art.dest = path ∧
      (t.world.content name = some c ∨ t.last name = some c) := by
  cases op with
  | external path data => exact hop.elim
  | adopt src cls now =>
    simp only [step] at hne
    obtain ⟨e, he⟩ | ⟨data, k, -, -, hok⟩ := adopt_cases (s := s) (w := t.world) src cls now
    · exact absurd (he ▸ hc) hne
    · rw [hok] at hne
      exact absurd hc hne
  | edit name data =>
    simp only [step] at hne
    obtain ⟨e, he⟩ | ⟨art, -, hok⟩ := edit_cases (s := s) (w := t.world) name data
    · exact absurd (he ▸ hc) hne
    · rw [hok] at hne
      exact absurd hc hne
  | deploy name force adoptLive now =>
    simp only [step] at hne
    obtain ⟨e, he⟩ | ⟨art, hget, hcase⟩ :=
      deploy_cases (s := s) (w := t.world) name force adoptLive now
    · exact absurd (he ▸ hc) hne
    obtain ⟨data, rfl, -, -, hok⟩ | ⟨data, w', hok, hpush, hwhy⟩ := hcase
    · exact absurd (hok ▸ hc) hne
    · rw [hok] at hne
      dsimp only at hne
      rw [hpush.live] at hne
      obtain ⟨rfl, hdata⟩ := update_ne_some hc hne
      obtain ⟨-, -, hst⟩ | ⟨-, hlive, -⟩ := hwhy
      · exact ⟨name, art, hget, rfl, h.attributable hs hget hc (hst hop)⟩
      · -- the live file is written with its own content
        exact absurd (hlive.symm.trans hc) hdata
  | remove name purge force =>
    simp only [step] at hne
    obtain ⟨e, he⟩ | ⟨art, hget, hst, hok⟩ :=
      remove_cases (s := s) (w := t.world) name purge force
    · exact absurd (he ▸ hc) hne
    · rw [hok] at hne
      have hlive : Function.update t.world.live art.dest none path ≠ some c := by
        cases purge <;> exact hne
      obtain ⟨rfl, -⟩ := update_ne_some hc hlive
      exact ⟨name, art, hget, rfl, h.attributable hs hget hc (hst hop)⟩

theorem managed_kept [DecidableEq C] (h : Inv s t) (hs : Function.Injective s.hash)
    {name : String} {c : C} (hc : t.world.content name = some c)
    (hne : (step s t op).world.content name ≠ some c) :
    (∃ data, op = .edit name data) ∨
      (∃ force now, op = .deploy name force true now) ∧ ¬ EditUndeployed t name ∨
      ∃ force, op = .remove name true force := by
  cases op with
  | external path data => exact absurd hc hne
  | adopt src cls now =>
    simp only [step] at hne
    obtain ⟨e, he⟩ | ⟨data, k, -, hget, hok⟩ := adopt_cases (s := s) (w := t.world) src cls now
    · exact absurd (he ▸ hc) hne
    · rw [hok] at hne
      obtain ⟨rfl, -⟩ := update_ne_some hc hne
      obtain ⟨art, hart⟩ := h.eq_some hc
      exact absurd (hget.symm.trans hart) nofun
  | edit n data =>
    simp only [step] at hne
    obtain ⟨e, he⟩ | ⟨art, -, hok⟩ := edit_cases (s := s) (w := t.world) n data
    · exact absurd (he ▸ hc) hne
    · rw [hok] at hne
      obtain ⟨rfl, -⟩ := update_ne_some hc hne
      exact .inl ⟨data, rfl⟩
  | deploy n force adoptLive now =>
    simp only [step] at hne
    obtain ⟨e, he⟩ | ⟨art, hget, hcase⟩ :=
      deploy_cases (s := s) (w := t.world) n force adoptLive now
    · exact absurd (he ▸ hc) hne
    obtain ⟨data, rfl, -, -, hok⟩ | ⟨data, w', hok, hpush, hwhy⟩ := hcase
    · exact absurd (hok ▸ hc) hne
    · rw [hok] at hne
      dsimp only at hne
      rw [hpush.content] at hne
      obtain ⟨rfl, hdata⟩ := update_ne_some hc hne
      obtain ⟨-, hsame, -⟩ | ⟨rfl, -, hpend⟩ := hwhy
      · exact absurd (hsame.symm.trans hc) hdata
      · refine .inr (.inl ⟨⟨force, now, rfl⟩, fun ⟨m, d, hm, hd, hmd, hlive⟩ => hpend ?_⟩)
        rw [World.liveOf, hget, Option.bind_some] at hlive
        rw [h.statusOf_eq hs hget hm, hd, hlive, contentStatus_pending hmd]
  | remove n purge force =>
    simp only [step] at hne
    obtain ⟨e, he⟩ | ⟨art, -, -, hok⟩ := remove_cases (s := s) (w := t.world) n purge force
    · exact absurd (he ▸ hc) hne
    · rw [hok] at hne
      cases purge with
      | false => exact absurd hc hne
      | true =>
        obtain ⟨rfl, -⟩ := update_ne_some hc hne
        exact .inr (.inr ⟨force, rfl⟩)

theorem deployed_live [DecidableEq C] (h : Inv s t) (hs : Function.Injective s.hash)
    {name : String} {force adoptLive : Bool} {now : String} {st : Status}
    (hst : (deploy s t.world name force adoptLive now).1 = .ok st) :
    ∃ art data, (deploy s t.world name force adoptLive now).2.entries.get name = some art ∧
      (deploy s t.world name force adoptLive now).2.content name = some data ∧
      (deploy s t.world name force adoptLive now).2.live art.dest = some data ∧
      statusOf s (deploy s t.world name force adoptLive now).2 art = .ok := by
  obtain ⟨e, he⟩ | ⟨art, hget, hcase⟩ :=
    deploy_cases (s := s) (w := t.world) name force adoptLive now
  · rw [he] at hst
    cases hst
  obtain ⟨data, rfl, hc, hstat, hok⟩ | ⟨data, w', hok, hpush, -⟩ := hcase
  · rw [hok]
    have hlive := hstat
    rw [h.statusOf_eq hs hget hc] at hlive
    exact ⟨art, data, hget, hc, contentStatus_ok hlive, hstat⟩
  · rw [hok]
    refine ⟨_, data, (hpush.entries name).trans (if_pos rfl), ?_, ?_, ?_⟩
    · rw [hpush.content, Function.update_self]
    · rw [hpush.live, Function.update_self]
    · have hdep : some (s.hash data) = (some data).map s.hash := rfl
      rw [Artifacts.statusOf_eq hs rfl hdep, hpush.live, Function.update_self, contentStatus_self]

theorem keeps_of_inv [DecidableEq C] (h : Inv s t) (hs : Function.Injective s.hash) :
    Keeps s t op where
  live hop _ _ hc hne := live_kept h hs hop hc hne
  managed _ _ hc hne := managed_kept h hs hc hne
  deployed name force adoptLive now st hop hst := by
    subst hop
    exact deployed_live h hs hst

/-- **No content is lost**: along a run that records its deployments every next operation keeps the
live files and the managed copies. -/
theorem content_kept [DecidableEq C] (hs : Function.Injective s.hash) (live : Path → Option C)
    (ops : List (Op C)) (hrec : Run.Each (step s) (Records s) ⟨World.init live, fun _ => none⟩ ops)
    (op : Op C) : Keeps s (story s live ops) op :=
  keeps_of_inv (hrec.invariant (inv_init live) fun _ _ _ h hr => inv_step hs h hr) hs

end Invariant

/-! ## A removed artifact put back -/

/-- Contents that are their own hash, and a script root. -/
def plain : Setting String String := ⟨id, [("/home/u/.local/bin", .script)], []⟩

/-- `~/.local/bin/s.sh`. -/
def script : Path := ⟨"/home/u/.local/bin", "s.sh"⟩

/-- Before any operation the script's content is `v1`. -/
def scriptFiles : Path → Option String := Function.update (fun _ => none) script (some "v1")

/-- A script is adopted, removed and put back by hand; the deploy finds it `ok`; then it is
edited. -/
def putBack : List (Op String) :=
  [.adopt script none "t1", .remove "s.sh" false false, .external script (some "v1"),
    .deploy "s.sh" false false "t2", .edit "s.sh" "v2"]

/-- A successful deploy without a deployed hash: adopting the live file then overwrites an edit that
was never deployed. -/
theorem not_content_kept :
    ¬ Keeps plain (story plain scriptFiles putBack) (.deploy "s.sh" false true "t3") := by
  intro h
  have hedit : EditUndeployed (story plain scriptFiles putBack) "s.sh" :=
    ⟨"v2", "v1", rfl, rfl, by decide, rfl⟩
  obtain ⟨data, hop⟩ | ⟨-, hno⟩ | ⟨force, hop⟩ := h.managed "s.sh" "v2" rfl (by decide)
  · cases hop
  · exact hno hedit
  · cases hop

/-- A script is adopted, edited, deployed and edited again. -/
def editedTwice : List (Op String) :=
  [.adopt script none "t1", .edit "s.sh" "v2", .deploy "s.sh" false false "t2", .edit "s.sh" "v3"]

/-- The edit that is pending is not overwritten by the live file. -/
theorem content_kept_editedTwice :
    Keeps plain (story plain scriptFiles editedTwice) (.deploy "s.sh" false true "t3") := by
  refine content_kept (s := plain) Function.injective_id scriptFiles editedTwice
    ⟨trivial, trivial, fun art hget hnone => ?_, trivial, trivial⟩ _
  obtain rfl := Option.some.inj hget.symm
  cases hnone

end Sysforge.Artifacts
