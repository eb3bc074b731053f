import Sysforge.Foundations.Interference
import Sysforge.Toolchain.StagingPrefix

/-!
# What a pass uses is private

Whatever others do between the steps of a run, a pass uses a prefix only as a directory that nobody
else can write to, with nothing in it but what the run has extracted.
-/

namespace Sysforge.Toolchain.Staging

open Interference

variable {run : ℕ} {n n' : Option Node} {nodes : Nodes} {p q : Prefix} {o : Outcome}

/-! ## What is known of a prefix -/

/-- A directory of the user is the run's own, unless others can write to it. -/
def Clean (run : ℕ) (n : Option Node) : Prop :=
  ∀ mode items, n = some ⟨.self, .dir mode items⟩ →
    writable mode = true ∨ mode = 0o700 ∧ ∀ i ∈ items, i.writer = .self ∧ i.run = run

/-- What a run knows of a prefix. -/
inductive Known | unknown | clean | present | ready
  deriving DecidableEq

def Known.Holds (run : ℕ) : Known → Option Node → Prop
  | .unknown, _ => True
  | .clean, n => Clean run n
  | .present, n => n ≠ none ∧ Clean run n
  | .ready, n => Private run n

theorem clean_none : Clean run none := fun _ _ h => absurd h.symm (Option.some_ne_none _)

/-- Others cannot plant a directory of the user that passes for the run's own. -/
theorem Plantable.clean (h : Plantable n) : Clean run n := by
  rintro mode items rfl
  exact .inl h

theorem Others.clean (h : Others n n') (hn : Clean run n) : Clean run n' := by
  rw [Others.eq_def] at h
  split at h
  case h_1 mode items =>
    obtain rfl | ⟨hshared, items', rfl⟩ := h
    · exact hn
    · intro mode' items₂ heq
      obtain ⟨rfl, rfl⟩ := Kind.dir.inj (congrArg Node.kind (Option.some.inj heq))
      obtain hw | ⟨rfl, -⟩ := hn mode items rfl
      · exact .inl hw
      · exact absurd hshared (by decide)
  case h_2 =>
    obtain ⟨d, rfl⟩ := h
    intro mode items heq
    cases heq
  case h_3 =>
    obtain rfl := h
    exact hn
  case h_4 => exact h.clean

/-- Others cannot touch what is private. -/
theorem Others.eq_of_private (h : Others n n') (hn : Private run n) : n' = n := by
  obtain ⟨items, rfl, -⟩ := hn
  obtain rfl | ⟨hshared, -⟩ := h
  · rfl
  · exact absurd hshared (by decide)

/-! ## The operations -/

theorem clean_mkdir (h : Clean run n) : Clean run (mkdir n) := by
  cases n with
  | none =>
    intro mode items heq
    obtain ⟨rfl, rfl⟩ := Kind.dir.inj (congrArg Node.kind (Option.some.inj heq))
    exact .inr ⟨rfl, fun i hi => absurd hi List.not_mem_nil⟩
  | some n => exact h

theorem mkdir_ne_none : mkdir n ≠ none := by
  cases n <;> exact Option.some_ne_none _

theorem mkdir_eq_self (h : n ≠ none) : mkdir n = n := by
  cases n with
  | none => exact absurd rfl h
  | some n => rfl

/-- What was there is private, if it passes the check. -/
theorem private_of_check (hn : n ≠ none) (h : Clean run n) (hc : checkPrivateDir true n = true) :
    Private run n := by
  rw [checkPrivateDir.eq_def] at hc
  split at hc
  · exact absurd rfl hn
  case h_2 mode items =>
    obtain hw | ⟨rfl, hitems⟩ := h mode items rfl
    · rw [hw] at hc
      exact absurd hc (by decide)
    · exact ⟨items, rfl, hitems⟩
  · exact absurd hc Bool.false_ne_true

theorem clean_removeStaging (h : (removeStaging o n).2 = true) :
    Clean run (removeStaging o n).1 := by
  rw [removeStaging.eq_def] at h ⊢
  split at h
  · exact clean_none
  · intro mode items heq
    cases heq
  case h_3 =>
    cases o with
    | ok => exact clean_none
    | failed kept => exact absurd h Bool.false_ne_true
  case h_4 => exact absurd h Bool.false_ne_true

theorem mem_extracted {items : List Item} {package : Text}
    (h : ∀ i ∈ items, i.writer = .self ∧ i.run = run) :
    ∀ i ∈ items ++ [⟨package, .self, run⟩], i.writer = .self ∧ i.run = run := by
  intro i hi
  obtain hi | hi := List.mem_append.mp hi
  · exact h i hi
  · obtain rfl := List.mem_singleton.mp hi
    exact ⟨rfl, rfl⟩

theorem clean_untar {package : Text} (h : Clean run n) : Clean run (untar run package o n).1 := by
  rw [untar.eq_def]
  split
  case h_1 owner mode items =>
    intro mode' items' heq
    obtain ⟨rfl, hkind⟩ := Node.mk.inj (Option.some.inj heq)
    obtain ⟨rfl, rfl⟩ := Kind.dir.inj hkind
    exact (h mode items rfl).imp_right fun hr => ⟨hr.1, mem_extracted hr.2⟩
  · exact h
  · exact h

theorem private_untar {package : Text} (h : Private run n) :
    Private run (untar run package o n).1 := by
  obtain ⟨items, rfl, hitems⟩ := h
  exact ⟨_, rfl, mem_extracted hitems⟩

/-! ## The discipline -/

/-- The prefixes that an instruction uses. -/
def Instr.uses : Instr → List Prefix
  | .build uses _ => uses
  | _ => []

/-- What an instruction adds to what is known. -/
def learn : Instr → (Prefix → Known) → Prefix → Known
  | .checkPrivateDir p true, k => if k p = .present then Function.update k p .ready else k
  | .mkdir p, k => if k p = .clean then Function.update k p .present else k
  | .removeStaging p, k => Function.update k p .clean
  | _, k => k

/-- What is used is ready; what has just been made is checked at once. -/
def Needs (i : Instr) (k : Prefix → Known) : Prop :=
  (∀ p ∈ i.uses, k p = .ready) ∧ ∀ p, k p = .present → i = .checkPrivateDir p true

/-- What others may do while an instruction is the next one. -/
def Rely (i : Instr) (nodes nodes' : Nodes) : Prop :=
  ∃ p n, nodes' = Function.update nodes p n ∧ Others (nodes p) n ∧
    (i = .checkPrivateDir p true → n = none → nodes p = none)

def HoldsAll (run : ℕ) (k : Prefix → Known) (nodes : Nodes) : Prop :=
  ∀ p, (k p).Holds run (nodes p)

variable {k : Prefix → Known} {i : Instr}

theorem holdsAll_update {v : Known} (h : HoldsAll run k nodes) (hv : v.Holds run n) :
    HoldsAll run (Function.update k p v) (Function.update nodes p n) := by
  intro q
  by_cases hq : q = p
  · subst hq
    rw [Function.update_self, Function.update_self]
    exact hv
  · rw [Function.update_of_ne hq, Function.update_of_ne hq]
    exact h q

theorem holdsAll_update_right (h : HoldsAll run k nodes) (hv : (k p).Holds run n) :
    HoldsAll run k (Function.update nodes p n) := by
  have hkept := holdsAll_update (p := p) h hv
  rwa [Function.update_eq_self] at hkept

theorem holdsAll_update_left {v : Known} (h : HoldsAll run k nodes)
    (hv : v.Holds run (nodes p)) : HoldsAll run (Function.update k p v) nodes := by
  have hkept := holdsAll_update (p := p) h hv
  rwa [Function.update_eq_self] at hkept

/-- What is known is stable. -/
theorem HoldsAll.rely {nodes' : Nodes} (h : HoldsAll run k nodes) (hi : Needs i k)
    (he : Rely i nodes nodes') : HoldsAll run k nodes' := by
  obtain ⟨p, n, rfl, hothers, hkept⟩ := he
  refine holdsAll_update_right h ?_
  have hp := h p
  cases hk : k p with
  | unknown => trivial
  | clean =>
    rw [hk] at hp
    exact hothers.clean hp
  | present =>
    rw [hk] at hp
    exact ⟨fun hnone => hp.1 (hkept (hi.2 p hk) hnone), hothers.clean hp.2⟩
  | ready =>
    rw [hk] at hp
    rw [hothers.eq_of_private hp]
    exact hp

/-- **One instruction** makes of the prefixes what it is known to make of them. -/
theorem HoldsAll.exec (h : HoldsAll run k nodes) (hi : Needs i k) (o : Outcome)
    (hgo : (Staging.exec run nodes i o).2 = true) :
    HoldsAll run (learn i k) (Staging.exec run nodes i o).1 := by
  cases i with
  | checkPrivateDir p checkMode =>
    cases checkMode with
    | false => exact h
    | true =>
      rw [learn]
      split_ifs with hk
      · have hp := h p
        rw [hk] at hp
        exact holdsAll_update_left h (private_of_check hp.1 hp.2 hgo)
      · exact h
  | mkdir p =>
    have hp := h p
    rw [learn]
    split_ifs with hk
    · rw [hk] at hp
      exact holdsAll_update h ⟨mkdir_ne_none, clean_mkdir hp⟩
    · refine holdsAll_update_right h ?_
      cases hk' : k p with
      | unknown => trivial
      | clean => exact absurd hk' hk
      | present => cases hi.2 p hk'
      | ready =>
        rw [hk'] at hp
        obtain ⟨items, heq, -⟩ := id hp
        rw [mkdir_eq_self (heq ▸ Option.some_ne_none _)]
        exact hp
  | untar p package =>
    have hp := h p
    refine holdsAll_update_right h ?_
    change (k p).Holds run _
    cases hk : k p with
    | unknown => trivial
    | clean =>
      rw [hk] at hp
      exact clean_untar hp
    | present => cases hi.2 p hk
    | ready =>
      rw [hk] at hp
      exact private_untar hp
  | removeStaging p => exact holdsAll_update h (clean_removeStaging hgo)
  | build => exact h
  | raise => exact absurd hgo Bool.false_ne_true

/-- What a run goes by. -/
def discipline (run : ℕ) : Discipline Nodes Instr Outcome (Prefix → Known) where
  exec := exec run
  env := Rely
  holds := HoldsAll run
  needs := Needs
  after := learn
  stable hi h he := h.rely hi he
  sound o hi h hgo := h.exec hi o hgo

/-! ## The program -/

/-- Nothing has just been made. -/
def Settled (k : Prefix → Known) : Prop := ∀ p, k p ≠ .present

theorem Settled.needs (hs : Settled k) (hu : ∀ p ∈ i.uses, k p = .ready) : Needs i k :=
  ⟨hu, fun p hp => absurd hp (hs p)⟩

theorem Settled.needs_of_uses (hs : Settled k) (hu : i.uses = []) : Needs i k :=
  hs.needs fun _ hp => absurd (hu ▸ hp) List.not_mem_nil

theorem Settled.update {v : Known} (hs : Settled k) (hv : v ≠ .present) :
    Settled (Function.update k p v) := by
  intro q
  by_cases hq : q = p
  · rw [hq, Function.update_self]
    exact hv
  · rw [Function.update_of_ne hq]
    exact hs q

theorem update_ready (h : k p = .ready) : Function.update k p .ready = k := by
  rw [← h, Function.update_eq_self]

variable {names : List Text} {package : Text} {uses : List Prefix} {mayFail : Bool}
  {plan : Plan}

/-- A check where nothing has just been made. -/
theorem leads_check (hs : Settled k) :
    (discipline run).Leads k [.checkPrivateDir p true] k := by
  have hlead : (discipline run).Leads k [.checkPrivateDir p true] _ :=
    Discipline.leads_one (hs.needs_of_uses rfl)
  have heq : learn (.checkPrivateDir p true) k = k := by
    rw [learn, if_neg (hs p)]
  rwa [show (discipline run).after (.checkPrivateDir p true) k = k from heq] at hlead

theorem leads_build (hs : Settled k) (hu : ∀ p ∈ uses, k p = .ready) :
    (discipline run).Leads k [.build uses mayFail] k :=
  Discipline.leads_one (hs.needs hu)

theorem leads_removeStaging (hs : Settled k) :
    (discipline run).Leads k [.removeStaging p] (Function.update k p .clean) :=
  Discipline.leads_one (hs.needs_of_uses rfl)

/-- The prefix is made and checked before anything is extracted. -/
theorem leads_extractPkg (hs : Settled k) (hk : k p = .clean ∨ k p = .ready) :
    (discipline run).Leads k (extractPkgToStaging p package) (Function.update k p .ready) := by
  obtain hk | hk := hk
  · have hmkdir : learn (.mkdir p) k = Function.update k p .present := by
      rw [learn, if_pos hk]
    have hcheck : learn (.checkPrivateDir p true) (Function.update k p .present) =
        Function.update k p .ready := by
      rw [learn, if_pos (Function.update_self ..), Function.update_idem]
    refine Discipline.Leads.cons (hs.needs_of_uses rfl) ?_
    rw [show (discipline run).after (.mkdir p) k = _ from hmkdir]
    refine Discipline.Leads.cons ⟨fun _ hq => absurd hq List.not_mem_nil, fun q hq => ?_⟩ ?_
    · by_cases hqp : q = p
      · rw [hqp]
      · rw [Function.update_of_ne hqp] at hq
        exact absurd hq (hs q)
    · rw [show (discipline run).after (.checkPrivateDir p true) _ = _ from hcheck]
      exact Discipline.leads_one ((hs.update Known.noConfusion).needs_of_uses rfl)
  · have hmkdir : learn (.mkdir p) k = k := by
      rw [learn, if_neg fun hc => Known.noConfusion (hk.symm.trans hc)]
    rw [update_ready hk]
    refine Discipline.Leads.cons (hs.needs_of_uses rfl) ?_
    rw [show (discipline run).after (.mkdir p) k = _ from hmkdir]
    exact (leads_check hs).append (Discipline.leads_one (hs.needs_of_uses rfl))

theorem leads_extractAll (hs : Settled k) (hk : k p = .clean ∨ k p = .ready)
    (hnames : names ≠ []) :
    (discipline run).Leads k (names.flatMap (extractPkgToStaging p))
      (Function.update k p .ready) := by
  induction names generalizing k with
  | nil => exact absurd rfl hnames
  | cons name names ih =>
    rw [List.flatMap_cons]
    refine (leads_extractPkg hs hk).append ?_
    by_cases hrest : names = []
    · rw [hrest, List.flatMap_nil]
      exact Discipline.leads_nil
    · have hrec := ih (hs.update Known.noConfusion) (.inr (Function.update_self p .ready k)) hrest
      rwa [Function.update_idem] at hrec

/-- More goes into a prefix that is ready. -/
theorem leads_extractMore (hs : Settled k) (hk : k p = .ready) :
    (discipline run).Leads k (extractBuiltToStaging p names) k := by
  rw [extractBuiltToStaging]
  by_cases hnames : names = []
  · rw [hnames, List.flatMap_nil]
    exact Discipline.leads_nil
  · have hlead : (discipline run).Leads k (names.flatMap (extractPkgToStaging p)) _ :=
      leads_extractAll hs (.inr hk) hnames
    rwa [update_ready hk] at hlead

theorem leads_purge : (discipline run).Leads (fun _ => .unknown) Plan.purge fun _ => .clean := by
  have hs : Settled fun _ => .unknown := fun _ => Known.noConfusion
  have hremove : (discipline run).Leads (fun _ => .unknown) _ _ :=
    (leads_removeStaging (p := .stage1) hs).append
      ((leads_removeStaging (p := .stage2) (hs.update Known.noConfusion)).append
        (leads_removeStaging (p := .stage3) ((hs.update Known.noConfusion).update
          Known.noConfusion)))
  have heq : Function.update (Function.update (Function.update (fun _ => Known.unknown)
      Prefix.stage1 .clean) .stage2 .clean) .stage3 .clean = fun _ => .clean := by
    funext q
    cases q <;> rfl
  rw [heq] at hremove
  exact .cons (hs.needs_of_uses rfl) (.cons (hs.needs_of_uses rfl)
    (.cons (hs.needs_of_uses rfl) hremove))

/-- Passes 2 and 3. -/
theorem leads_train (hs : Settled k) (h₁ : k .stage1 = .ready) (h₂ : k .stage2 = .clean)
    (hpgo : plan.pgo ≠ []) :
    (discipline run).Leads k plan.train (Function.update k .stage2 .ready) := by
  have hbuild : ∀ m, (discipline run).Leads k [.build [.stage1] m] k := fun m =>
    leads_build hs fun q hq => List.mem_singleton.mp hq ▸ h₁
  have hboot : (discipline run).Leads k
      (if plan.nonPgo = [] then [] else [.build [.stage1] false]) k :=
    Discipline.leads_ite (fun _ => Discipline.leads_nil) fun _ => hbuild false
  have hcorpus : (discipline run).Leads k
      (if plan.corpus then [.build [.stage1] true] else []) k :=
    Discipline.leads_ite (fun _ => hbuild true) fun _ => Discipline.leads_nil
  exact ((((hboot.append (leads_extractMore hs h₁)).append (leads_check hs)).append
    (hbuild false)).append hcorpus).append (leads_extractAll hs (.inl h₂) hpgo)

/-- Pass 4. -/
theorem leads_optimize {clang : List Prefix} (hs : Settled k)
    (hclang : ∀ q ∈ clang, k q = .ready ∧ q ≠ .stage3) (hpgo : plan.pgo ≠ []) :
    ∃ k', Settled k' ∧ (discipline run).Leads k (plan.optimize clang) k' := by
  have hcheck : (discipline run).Leads k
      (if clang = [] then [] else .checkPrivateDir .stage2 true :: stageEnv .stage2) k :=
    Discipline.leads_ite (fun _ => Discipline.leads_nil)
      fun _ => (leads_check hs).append (leads_check hs)
  have hpass : (discipline run).Leads k [.build clang false] k :=
    leads_build hs fun q hq => (hclang q hq).1
  have hbolt : (discipline run).Leads k (if plan.bolt then [.build clang false] else []) k :=
    Discipline.leads_ite (fun _ => hpass) fun _ => Discipline.leads_nil
  have hfirst := (hcheck.append hpass).append hbolt
  by_cases hmore : plan.nonPgo = [] ∧ plan.lib32 = []
  · refine ⟨k, hs, ?_⟩
    rw [Plan.optimize, if_pos hmore, if_pos hmore.1, if_pos hmore.2, List.append_nil,
      List.append_nil, List.append_nil]
    exact hfirst
  set k₁ := Function.update k .stage3 .clean with hk₁
  set k₂ := Function.update k₁ .stage3 .ready with hk₂
  have hs₁ : Settled k₁ := hs.update Known.noConfusion
  have hs₂ : Settled k₂ := hs₁.update Known.noConfusion
  have hstage : (discipline run).Leads k
      (if plan.nonPgo = [] ∧ plan.lib32 = [] then []
        else .removeStaging .stage3 :: extractBuiltToStaging .stage3 plan.pgo) k₂ := by
    refine Discipline.leads_ite (fun h => absurd h hmore) fun _ => ?_
    exact (leads_removeStaging hs).append
      (leads_extractAll hs₁ (.inl (Function.update_self ..)) hpgo)
  have hready : k₂ .stage3 = .ready := Function.update_self ..
  have hlink : (discipline run).Leads k₂ [.build (.stage3 :: clang) false] k₂ := by
    refine leads_build hs₂ fun q hq => ?_
    obtain rfl | hq := List.mem_cons.mp hq
    · exact hready
    · obtain ⟨hqr, hne⟩ := hclang q hq
      rw [hk₂, hk₁, Function.update_of_ne hne, Function.update_of_ne hne]
      exact hqr
  have hnonPgo : (discipline run).Leads k₂
      (if plan.nonPgo = [] then []
        else .build (.stage3 :: clang) false ::
          (if plan.lib32 = [] then [] else extractBuiltToStaging .stage3 plan.nonPgo)) k₂ := by
    refine Discipline.leads_ite (fun _ => Discipline.leads_nil) fun _ => hlink.append ?_
    exact Discipline.leads_ite (fun _ => Discipline.leads_nil)
      fun _ => leads_extractMore hs₂ hready
  have hlib32 : (discipline run).Leads k₂
      (if plan.lib32 = [] then [] else [.build (.stage3 :: clang) false]) k₂ :=
    Discipline.leads_ite (fun _ => Discipline.leads_nil) fun _ => hlink
  exact ⟨k₂, hs₂, ((hfirst.append hstage).append hnonPgo).append hlib32⟩

theorem leads_cleanup (hs : Settled k) : ∃ k', (discipline run).Leads k Plan.cleanup k' :=
  ⟨_, (leads_removeStaging hs).append (leads_removeStaging (hs.update Known.noConfusion))⟩

/-- **The program is guarded**, from nothing that is known. -/
theorem guarded_program (reuse : Bool) (hreuse : reuse = true → plan.pgo ≠ []) :
    (discipline run).Guarded (fun _ => .unknown) (plan.program reuse) := by
  have hunknown : Settled fun _ => .unknown := fun _ => Known.noConfusion
  have hclean : Settled fun _ => .clean := fun _ => Known.noConfusion
  have hfirst : (discipline run).Leads (fun _ => .unknown) (Plan.purge ++ [.build [] false])
      fun _ => .clean :=
    leads_purge.append (leads_build hclean fun q hq => absurd hq List.not_mem_nil)
  rw [Plan.program]
  by_cases hr : reuse = true
  · rw [if_pos hr]
    obtain ⟨k₁, hs₁, hopt⟩ : ∃ k', Settled k' ∧
        (discipline run).Leads (fun _ => .unknown) (plan.optimize []) k' :=
      leads_optimize hunknown (fun q hq => absurd hq List.not_mem_nil) (hreuse hr)
    obtain ⟨k₂, hclean⟩ : ∃ k', (discipline run).Leads k₁ Plan.cleanup k' := leads_cleanup hs₁
    exact (hopt.append hclean).guarded
  rw [if_neg hr]
  by_cases hc : plan.collected = []
  · rw [if_pos hc, hc, pgoStageInstrumented, if_pos rfl]
    exact (hfirst.append (Discipline.leads_one (hclean.needs_of_uses rfl))).guarded
  · have hpgo : plan.pgo ≠ [] := fun hnil =>
      hc (plan.collected_eq_nil (List.map_eq_nil_iff.mp hnil))
    have hs₁ := hclean.update (p := .stage1) (v := .ready) Known.noConfusion
    have hs₂ := hs₁.update (p := .stage2) (v := .ready) Known.noConfusion
    have hstaged : (discipline run).Leads (fun _ => .clean)
        (plan.collected.flatMap (extractPkgToStaging .stage1)) _ :=
      leads_extractAll hclean (.inl rfl) hc
    have htrain : (discipline run).Leads _ plan.train _ := leads_train hs₁ rfl rfl hpgo
    obtain ⟨k₁, hs₃, hopt⟩ : ∃ k', Settled k' ∧ (discipline run).Leads _
        (plan.optimize (if plan.stagedClang then [.stage2] else [])) k' := by
      refine leads_optimize hs₂ (fun q hq => ?_) hpgo
      split_ifs at hq
      · obtain rfl := List.mem_singleton.mp hq
        exact ⟨rfl, Prefix.noConfusion⟩
      · exact absurd hq List.not_mem_nil
    obtain ⟨k₂, hend⟩ : ∃ k', (discipline run).Leads k₁ Plan.cleanup k' := leads_cleanup hs₃
    rw [if_neg hc, pgoStageInstrumented, if_neg hc]
    exact ((((hfirst.append hstaged).append htrain).append hopt).append hend).guarded

/-! ## Runs -/

/-- What is left of the run is guarded. -/
def Inv (w : World) : Prop := ∀ is, w.todo = some is → (discipline w.runs).Tracks w.nodes is

/-- A profile is reused only where there is something to build with it. -/
theorem pgo_ne_nil {alnum : Char → Bool} {store : ProfdataReuse.PgoStore} {accept : Bool}
    (h : (accept && (ProfdataReuse.checkExistingProfdata alnum store plan.pgoMap).kind = .ready) =
      true) : plan.pgo ≠ [] := by
  intro hnil
  have hready := of_decide_eq_true (Bool.and_eq_true_iff.mp h).2
  rw [List.map_eq_nil_iff.mp hnil, ProfdataReuse.checkExistingProfdata, List.findSome?_nil,
    ProfdataReuse.withSaved] at hready
  split_ifs at hready
  · cases hready
  · split at hready <;> cases hready

/-- **One step**. -/
theorem step_inv {alnum : Char → Bool} {w : World} (h : Inv w) (event : Event)
    (hf : Fair w event) : Inv (step alnum w event) := by
  cases event with
  | others p n =>
    intro is his
    cases is with
    | nil => trivial
    | cons i is =>
      refine (h _ his).others ⟨p, n, rfl, hf.1, ?_⟩
      rintro rfl rfl
      exact hf.2 p is rfl his
  | user nodes => exact fun is his => absurd (hf.1.symm.trans his).symm (Option.some_ne_none is)
  | start plan store accept =>
    rw [step]
    split_ifs with hrun
    · exact h
    · intro is his
      obtain rfl := Option.some.inj his
      exact Discipline.tracks_of_guarded (guarded_program _ pgo_ne_nil) fun _ => trivial
  | advance o =>
    rw [step]
    split
    case h_1 i rest htodo =>
      intro is his
      have hleft : (if (exec w.runs w.nodes i o).2 then some rest else none) = some is := his
      split_ifs at hleft with hgo
      obtain rfl := Option.some.inj hleft
      exact (h _ htodo).exec o hgo
    case h_2 => exact fun is his => absurd his.symm (Option.some_ne_none is)
  | leave => exact fun is his => absurd his.symm (Option.some_ne_none is)

/-- **Prefixes are private**: whatever others do between the steps of a run, while a pass uses a
prefix nobody else can write to it, and the run has extracted everything in it. -/
theorem prefixes_private (alnum : Char → Bool) (nodes : Nodes) (events : List Event)
    (hfair : Run.Each (step alnum) Fair { nodes := nodes } events) {uses : List Prefix}
    {mayFail : Bool} {rest : List Instr}
    (huses : (Run.run (step alnum) { nodes := nodes } events).todo =
      some (.build uses mayFail :: rest)) :
    ∀ p ∈ uses, Private (Run.run (step alnum) { nodes := nodes } events).runs
      ((Run.run (step alnum) { nodes := nodes } events).nodes p) := by
  have h : Inv (Run.run (step alnum) { nodes := nodes } events) :=
    hfair.invariant (fun is his => absurd his.symm (Option.some_ne_none is))
      fun w event _ hw he => step_inv hw event he
  obtain ⟨k, hk, hneeds, -⟩ := (h _ huses).needs
  intro p hp
  have hprivate := hk p
  rw [hneeds p hp] at hprivate
  exact hprivate

/-! ### Attacks -/

/-- LLVM and a clang that is built against it. -/
def llvmPlan : Plan where
  pgoMap := [(['l'], .text [])]
  nonPgo := [['c']]
  lib32 := []
  collected := [['l']]
  collected_eq_nil h := absurd h (List.cons_ne_nil _ _)
  corpus := false
  stagedClang := false
  bolt := false

/-- A directory of somebody else that everybody can write to. -/
def planted : Option Node := some ⟨.other, .dir 0o777 []⟩

/-- A run up to where Pass 1 has built its packages. -/
def firstPass : List Event :=
  .start llvmPlan ⟨[], false, none⟩ false :: List.replicate 7 (.advance .ok)

/-- Others plant a link and take it away, and plant a directory at a prefix that is used later. -/
def triedRun : List Event :=
  firstPass ++ [.others .stage1 (some ⟨.other, .symlink false⟩), .others .stage1 none,
    .others .stage3 planted, .advance .ok, .advance .ok, .advance .ok]

/-- Others plant a directory, take it away before it is checked, and plant it again. -/
def stolenRun : List Event :=
  firstPass ++ [.others .stage1 planted, .advance .ok, .others .stage1 none, .advance .ok,
    .others .stage1 planted, .advance .ok]

theorem fair_of_ne {w : World} {event : Event} (h : Possible w event)
    (hne : ∀ p, event ≠ .others p none) : Fair w event :=
  ⟨h, fun p _ heq => absurd heq (hne p)⟩

theorem fair_advance {w : World} : Fair w (.advance o) :=
  fair_of_ne trivial fun _ => Event.noConfusion

theorem mkdir_ne_check {is js : List Instr} :
    some (Instr.mkdir p :: is) ≠ some (.checkPrivateDir q true :: js) := by
  intro h
  cases h

/-- The witness: the bootstrap uses what this run has extracted. -/
theorem prefixes_private_tried :
    Private 1 ((Run.run (step Char.isAlphanum) { nodes := fun _ => none } triedRun).nodes
      .stage1) := by
  obtain ⟨rest, htodo⟩ : ∃ rest, (Run.run (step Char.isAlphanum) { nodes := fun _ => none }
      triedRun).todo = some (.build [.stage1] false :: rest) := ⟨_, rfl⟩
  have hsome : ∀ n p, Event.others .stage1 (some n) ≠ .others p none := by
    intro n p h
    cases h
  have hlater : ∀ p, Event.others .stage3 planted ≠ .others p none := by
    intro p h
    cases h
  refine prefixes_private Char.isAlphanum (fun _ => none) triedRun ?_ htodo .stage1
    (List.mem_singleton.mpr rfl)
  exact ⟨fair_of_ne trivial fun _ => Event.noConfusion, fair_advance, fair_advance, fair_advance,
    fair_advance, fair_advance, fair_advance, fair_advance, fair_of_ne trivial (hsome _),
    ⟨trivial, fun _ _ _ h => (mkdir_ne_check h).elim⟩, fair_of_ne trivial hlater, fair_advance,
    fair_advance, fair_advance, trivial⟩

/-- The check between `mkdir` and `tar` is not enough where a name can be taken back. -/
theorem not_prefixes_private :
    ¬ ∀ events, Run.Each (step Char.isAlphanum) Possible { nodes := fun _ => none } events →
      ∀ uses mayFail rest,
        (Run.run (step Char.isAlphanum) { nodes := fun _ => none } events).todo =
          some (.build uses mayFail :: rest) →
        ∀ p ∈ uses, Private
          (Run.run (step Char.isAlphanum) { nodes := fun _ => none } events).runs
          ((Run.run (step Char.isAlphanum) { nodes := fun _ => none } events).nodes p) := by
  intro h
  obtain ⟨rest, htodo⟩ : ∃ rest, (Run.run (step Char.isAlphanum) { nodes := fun _ => none }
      stolenRun).todo = some (.build [.stage1] false :: rest) := ⟨_, rfl⟩
  obtain ⟨items, heq, -⟩ := h stolenRun ⟨trivial, trivial, trivial, trivial, trivial, trivial,
    trivial, trivial, trivial, trivial, trivial, trivial, trivial, trivial, trivial⟩ _ _ _ htodo
    .stage1 (List.mem_singleton.mpr rfl)
  have howner := congrArg Node.owner (Option.some.inj heq)
  cases howner

end Sysforge.Toolchain.Staging
