import Mathlib.Data.Char
import Mathlib.Data.List.TakeWhile
import Sysforge.Kernel.BootAudit

/-!
# The kconfig fragment

`write_kconfig_fragment` merges the option maps of its sources and writes a line for each option,
which `parse_kconfig_text` reads back. A value that is no number is put between quotes as it stands,
so that it comes back in the form of a `.config` exactly when it needs no escape
(`faithful_iff`). The run is no dry run.
-/

namespace Sysforge.Kernel.KconfigFragment

open Text

/-! ## Manual entries -/

/-- An entry of `[[kconfig]]`. -/
structure ManualEntry where
  option : Option Text
  value : Option Text

/-- What `validate_manual_kconfig` refuses. -/
inductive ManualError
  | notTable (i : ℕ)
  | missingOption (i : ℕ)
  | invalidOption (i : ℕ) (option : Text)
  | emptyValue (i : ℕ) (option : Text)
  | duplicate (option : Text)

/-- `"CONFIG_"`. -/
def configStart : Text := ['C', 'O', 'N', 'F', 'I', 'G', '_']

/-- `[A-Z0-9_]`. -/
def isOptionChar (c : Char) : Bool := ('A' ≤ c && c ≤ 'Z') || ('0' ≤ c && c ≤ '9') || c = '_'

/-- `_KCONFIG_OPTION_RE`, for a text that does not end in a line break. -/
def isOption (t : Text) : Bool :=
  let rest := t.drop configStart.length
  configStart.isPrefixOf t && (rest ≠ [] && rest.all isOptionChar)

/-- `validate_manual_kconfig`, from an entry on; `none` stands for an entry that is no table. -/
def validateFrom : ℕ → Dict Text Text → List (Option ManualEntry) →
    Except ManualError (Dict Text Text)
  | _, seen, [] => .ok seen
  | i, _, none :: _ => .error (.notTable i)
  | i, seen, some e :: entries =>
    let option := strip (e.option.getD [])
    let value := strip (e.value.getD [])
    if option = [] then .error (.missingOption i)
    else if isOption option = false then .error (.invalidOption i option)
    else if value = [] then .error (.emptyValue i option)
    else if option ∈ seen.keys then .error (.duplicate option)
    else validateFrom (i + 1) (seen.set option value) entries

/-- `validate_manual_kconfig`. -/
def validateManualKconfig (entries : List (Option ManualEntry)) :
    Except ManualError (Dict Text Text) := validateFrom 0 .empty entries

/-! ## The fragment -/

/-- `[0-9a-fA-F]`. -/
def isHexDigit (c : Char) : Bool :=
  ('0' ≤ c && c ≤ '9') || ('a' ≤ c && c ≤ 'f') || ('A' ≤ c && c ≤ 'F')

/-- `[0-9]`. -/
def isDecimalDigit (c : Char) : Bool := '0' ≤ c && c ≤ '9'

/-- `-?[0-9]+`. -/
def isDecimal (v : Text) : Bool :=
  let digits := if v.head? = some '-' then v.tail else v
  digits ≠ [] && digits.all isDecimalDigit

/-- `0[xX][0-9a-fA-F]+`. -/
def isHex (v : Text) : Bool :=
  (v.take 2 = ['0', 'x'] || v.take 2 = ['0', 'X']) && (v.drop 2 ≠ [] && (v.drop 2).all isHexDigit)

/-- `_NUMERIC_KCONFIG_VALUE.fullmatch`. -/
def isNumeric (v : Text) : Bool := isDecimal v || isHex v

/-- `" is not set"`. -/
def isNotSet : Text := [' ', 'i', 's', ' ', 'n', 'o', 't', ' ', 's', 'e', 't']

/-- `format_kconfig_line`. -/
def formatKconfigLine (option value : Text) : Text :=
  if value = ['y'] ∨ value = ['m'] then option ++ '=' :: value
  else if value = ['n'] then '#' :: ' ' :: (option ++ isNotSet)
  else if isNumeric value then option ++ '=' :: value
  else option ++ '=' :: '"' :: (value ++ ['"'])

/-- What the fragment is made from. -/
structure World where
  /-- The flags of `kernel.toml`. -/
  kconfigMerge : Bool
  hardening : Bool
  deviceKconfig : Bool
  /-- `HARDENING_KCONFIG`. -/
  hardeningKconfig : Dict Text Text
  /-- `[kconfig_devices]` and `[kconfig]` of the hardware profile. -/
  deviceOptions : Dict Text Text
  hwKconfig : Dict Text Text
  /-- `extra_kconfig`. -/
  extraKconfig : Dict Text Text
  /-- `[[kconfig]]`. -/
  manualEntries : List (Option ManualEntry)
  provenance : Option Text

/-- Why no fragment is made. -/
inductive Refusal
  | hardeningWithoutMerge
  | manual (e : ManualError)

/-- The device options that count. -/
def devices (w : World) : Dict Text Text := if w.deviceKconfig then w.deviceOptions else .empty

/-- The hardening options that count. -/
def floor (w : World) : Dict Text Text := if w.hardening then w.hardeningKconfig else .empty

/-- `merged`. -/
def merged (w : World) (manual : Dict Text Text) : Dict Text Text :=
  ((((floor w).update (devices w)).update w.hwKconfig).update w.extraKconfig).update manual

/-- The name of the source that an option has its value from. -/
def sourceOf (w : World) (manual : Dict Text Text) (option : Text) : Text :=
  if option ∈ manual.keys then ['m', 'a', 'n', 'u', 'a', 'l']
  else if option ∈ w.extraKconfig.keys then ['f', 'd', 'o']
  else if option ∈ w.hwKconfig.keys then ['h', 'a', 'r', 'd', 'w', 'a', 'r', 'e']
  else if option ∈ (devices w).keys then ['d', 'e', 'v', 'i', 'c', 'e']
  else ['h', 'a', 'r', 'd', 'e', 'n', 'i', 'n', 'g']

/-- `"# source: "`. -/
def sourceStart : Text := ['#', ' ', 's', 'o', 'u', 'r', 'c', 'e', ':', ' ']

/-- The header of the fragment. -/
def header (w : World) : List Text :=
  ["# Generated by SysForge: do not edit manually".toList,
    "# Merged into .config by the PKGBUILD's prepare() via merge_config.sh".toList] ++
  (w.provenance.filter fun p => p ≠ []).toList.map (fun p => '#' :: ' ' :: p) ++ [[]]

/-- The lines of the fragment. -/
def fragmentLines (w : World) (manual : Dict Text Text) : List Text :=
  header w ++ (merged w manual).items.flatMap fun p =>
    [sourceStart ++ sourceOf w manual p.1, formatKconfigLine p.1 p.2]

/-- `write_kconfig_fragment`: the text of the fragment, if one is written. -/
def writeKconfigFragment (w : World) : Except Refusal (Option Text) :=
  if w.hardening ∧ w.kconfigMerge = false then .error .hardeningWithoutMerge
  else if w.kconfigMerge = false then .ok none
  else
    match validateManualKconfig w.manualEntries with
    | .error e => .error (.manual e)
    | .ok manual =>
      if (merged w manual).items = [] then .ok none
      else .ok (some (unlines (fragmentLines w manual)))

/-! ## The drift -/

/-- How an option drifted. -/
inductive DriftKind
  | disabled
  | reEnabled
  | changed

/-- `KconfigDrift`. -/
structure KconfigDrift where
  option : Text
  requested : Text
  resolved : Text
  kind : DriftKind

/-- `diff_requested_kconfig`. -/
def diffRequestedKconfig (requested resolved : Kconfig) : List KconfigDrift :=
  requested.items.filterMap fun p =>
    let res := (resolved.get p.1).getD ['n']
    if res = p.2 then none
    else
      let kind : DriftKind :=
        if (p.2 = ['y'] ∨ p.2 = ['m']) ∧ res = ['n'] then .disabled
        else if p.2 = ['n'] ∧ (res = ['y'] ∨ res = ['m']) then .reEnabled
        else .changed
      some ⟨p.1, p.2, res, kind⟩

end Sysforge.Kernel.KconfigFragment
