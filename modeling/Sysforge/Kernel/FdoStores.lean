import Sysforge.Foundations.Dict
import Sysforge.Foundations.Text

/-!
# The profile stores of a kernel

A kernel name has an AutoFDO store and a Propeller store. The Propeller store holds a copy of the
AutoFDO profile that its profiling kernel was built with, the cc and ld profiles captured from that
kernel, and the record of the round: the version profiled, the build tree, and the hash of the
pinned profile. A captured file carries, beside its content, the kernel it was captured from.

Contents are abstract; `sha256` hashes a file and `digest` a text.
-/

namespace Sysforge.Kernel

/-- A built kernel, as its boot banner, release, package, version and profiles tell it. -/
structure Image (F : Type*) where
  banner : String
  release : String
  pkgname : String
  pkgver : String
  /-- built by a record round -/
  profiling : Bool
  /-- the AutoFDO profile it was built with -/
  afdo : Option F
  deriving DecidableEq

/-- A profile captured from a kernel. -/
structure Captured (F : Type*) where
  content : F
  image : Image F

/-- `RoundInfo`. -/
structure RoundInfo where
  pkgver : Option String
  buildDir : Option String
  afdoSha256 : Option String

/-- The files of a store. -/
structure Store (F : Type*) where
  afdo : Option F := none
  cc : Option (Captured F) := none
  ld : Option (Captured F) := none
  round : Option RoundInfo := none
  applied : Option String := none
  /-- the kernel that the round record was written for -/
  profiled : Option (Image F) := none

/-- Which store: of a kernel name, for AutoFDO or for Propeller. -/
structure StoreKey where
  pkgname : String
  propeller : Bool
  deriving DecidableEq

/-- The stores. -/
abbrev Stores (F : Type*) := StoreKey → Store F

variable {F : Type*} (sha256 : F → String) (digest : String → String) (root : String)

/-- A store is replaced. -/
def Stores.set (ss : Stores F) (k : StoreKey) (s : Store F) : Stores F :=
  fun k' => if k' = k then s else ss k'

@[simp] theorem Stores.set_self (ss : Stores F) (k : StoreKey) (s : Store F) : ss.set k s k = s :=
  if_pos rfl

theorem Stores.set_of_ne (ss : Stores F) {k k' : StoreKey} (h : k' ≠ k) (s : Store F) :
    ss.set k s k' = ss k' := if_neg h

/-! ## Names and paths -/

/-- `resolve_store`, as a path. -/
def storePath (k : StoreKey) : String :=
  root ++ "/" ++ (if k.propeller then "propeller" else "autofdo") ++ "/" ++ k.pkgname

/-- `autofdo_profile_path`. -/
def autofdoProfilePath (k : StoreKey) : String := storePath root k ++ "/kernel.afdo"

/-- The path of the round record. -/
def roundPath (k : StoreKey) : String := storePath root k ++ "/round.toml"

/-- The paths of `_propeller_files`. -/
def propellerFiles (k : StoreKey) : String × String :=
  (storePath root k ++ "/propeller_cc_profile.txt", storePath root k ++ "/propeller_ld_profile.txt")

/-- `_ROLES`. -/
def roles : List String := ["-profiling", "-fdo", "-propeller"]

def hasEnding (e s : String) : Bool := e.toList.isSuffixOf s.toList

/-- `strip_role`. -/
def stripRole (name : String) : String :=
  match roles.find? fun r => hasEnding ("-sysforge" ++ r) name with
  | some r => String.ofList (name.toList.take (name.toList.length - r.toList.length))
  | none => name

/-- `_role_name`. -/
def roleName (pkgname role : String) : String :=
  let base := stripRole pkgname
  (if hasEnding "-sysforge" base then base else base ++ "-sysforge") ++ role

/-- `record_pkgname`. -/
def recordPkgname (pkgname : String) : String := roleName pkgname "-profiling"

/-- `optimized_pkgname`. -/
def optimizedPkgname (pkgname : String) (propeller : Bool) : String :=
  roleName pkgname (if propeller then "-propeller" else "-fdo")

/-! ## The sidecars -/

/-- A text that is there and not empty. -/
def nonEmpty (o : Option String) : Option String := o.filter (· ≠ "")

/-- `write_round`, as `read_round` reads it back. -/
def writeRound (s : Store F) (pkgver buildDir afdoSha256 : Option String) : Store F :=
  { s with round := some ⟨nonEmpty pkgver, nonEmpty buildDir, nonEmpty afdoSha256⟩ }

/-- `read_applied`. -/
def readApplied (s : Store F) : Option String := nonEmpty s.applied

/-- The content of each file that `applied_fingerprint` hashes. -/
def appliedInputs (s : Store F) (propeller : Bool) : List (String × Option F) :=
  ("kernel.afdo", s.afdo) ::
    if propeller then [("propeller_cc_profile.txt", s.cc.map Captured.content),
      ("propeller_ld_profile.txt", s.ld.map Captured.content)] else []

/-- `applied_fingerprint`; nothing when a file cannot be read. -/
def appliedFingerprint (s : Store F) (propeller : Bool) : Option String :=
  let line (q : String × Option F) : Option String :=
    q.2.map fun c => q.1 ++ "\x00" ++ sha256 c ++ "\n"
  ((appliedInputs s propeller).mapM line).map fun lines => digest (String.join lines)

/-! ## The round -/

/-- `clear_round_profiles`, when the removal stops after `n` files. -/
def clearRoundProfiles (s : Store F) (propeller : Bool) (n : ℕ) : Store F :=
  if propeller then
    { s with
      cc := if 0 < n then none else s.cc
      ld := if 1 < n then none else s.ld }
  else { s with afdo := if 0 < n then none else s.afdo }

/-- `require_profile`. -/
def requireProfile (k : StoreKey) (s : Store F) : Except String (Option RoundInfo) :=
  let afdo := autofdoProfilePath root k
  if !k.propeller then
    if s.afdo.isNone then
      .error ("no AutoFDO profile at " ++ afdo ++ ". Build the profiling kernel with " ++
        "\x60sysforge run kernel --autofdo=record\x60, reboot into it, run " ++
        "\x60--autofdo=capture\x60 and the commands it prints, then re-run " ++
        "\x60--autofdo=use\x60.")
    else .ok s.round
  else match s.round.bind RoundInfo.afdoSha256 with
    | none =>
      .error ("no round-2 record in " ++ roundPath root k ++ " (a pre-rework single-round " ++
        "Propeller store?). Redo round 2: \x60--autofdo=record --propeller\x60, reboot, " ++
        "\x60--autofdo=capture --propeller\x60, then \x60--autofdo=use --propeller\x60.")
    | some sha =>
      if s.afdo.map sha256 ≠ some sha then
        .error ("the pinned AutoFDO profile " ++ afdo ++ " changed since round 2 profiled with " ++
          "it. Redo round 2 (\x60--autofdo=record --propeller\x60).")
      else
        let missing := (if s.cc.isNone then [(propellerFiles root k).1] else []) ++
          if s.ld.isNone then [(propellerFiles root k).2] else []
        if missing ≠ [] then
          .error ("Propeller profile incomplete: missing " ++ ", ".intercalate missing ++
            ". Re-run \x60sysforge run kernel --autofdo=capture --propeller\x60 and the " ++
            "commands it prints.")
        else .ok s.round

/-- **What the Propeller check says**: the round records the hash of the pinned profile, and the pair
is there. -/
theorem requireProfile_ok {k : StoreKey} {s : Store F} {info : Option RoundInfo}
    (hk : k.propeller = true) (h : requireProfile sha256 root k s = .ok info) :
    info = s.round ∧ ∃ r p c l, s.round = some r ∧ s.afdo = some p ∧
      r.afdoSha256 = some (sha256 p) ∧ s.cc = some c ∧ s.ld = some l := by
  rw [requireProfile] at h
  simp only [hk, Bool.not_true, Bool.false_eq_true, if_false] at h
  cases hsha : s.round.bind RoundInfo.afdoSha256 with
  | none => rw [hsha] at h; cases h
  | some sha =>
    rw [hsha] at h
    dsimp only at h
    by_cases hpin : s.afdo.map sha256 ≠ some sha
    · rw [if_pos hpin] at h; cases h
    · rw [if_neg hpin] at h
      obtain ⟨r, hr, hrsha⟩ := Option.bind_eq_some_iff.mp hsha
      obtain ⟨p, hp, rfl⟩ := Option.map_eq_some_iff.mp (not_not.mp hpin)
      cases hc : s.cc with
      | none =>
        simp only [hc, Option.isNone_none, if_true, List.cons_append, ne_eq, List.cons_ne_nil,
          not_false_eq_true] at h
        cases h
      | some c =>
        cases hl : s.ld with
        | none =>
          simp only [hc, hl, Option.isNone_none, Option.isNone_some, Bool.false_eq_true, if_true,
            if_false, List.nil_append, ne_eq, List.cons_ne_nil, not_false_eq_true] at h
          cases h
        | some l =>
          simp only [hc, hl, Option.isNone_some, Bool.false_eq_true, if_false, List.nil_append,
            ne_eq, not_true_eq_false, Except.ok.injEq] at h
          exact ⟨h.symm, r, p, c, l, hr, hp, hrsha, rfl, rfl⟩

end Sysforge.Kernel
