import Sysforge.Foundations.Dict
import Sysforge.Foundations.Lines

/-!
# Boot loader entries

Type #1 entries of the boot loader: `key value` lines, of which sysforge writes one file for each
kernel it builds, cloned from an entry of the operator. A file is sysforge's when its name and its
first line both say so. Names and texts are lists of code points, as `Sysforge.Text`.
-/

namespace Sysforge.Boot

open Text

/-- A parsed entry: its `key value` lines in order, and its first line when that is a comment. -/
structure LoaderEntry where
  filename : Text
  lines : List (Text × Text)
  header : Option Text
  deriving DecidableEq

namespace LoaderEntry

/-- The value of the first line with the key. -/
def get (e : LoaderEntry) (key : String) : Option Text :=
  (e.lines.find? fun p => p.1 = key.toList).map Prod.snd

/-- The values of the lines with the key. -/
def getAll (e : LoaderEntry) (key : String) : List Text :=
  (e.lines.filter fun p => p.1 = key.toList).map Prod.snd

/-- `linux_basename`: the last part of the kernel's path, when it has one. -/
def linuxBasename (e : LoaderEntry) : Option Text :=
  match e.get "linux" with
  | none | some [] => none
  | some path => some (baseName path)

end LoaderEntry

/-! ## Parsing -/

/-- `key, value = line.split(None, 1)` for a stripped line, with an empty value when there is
none. -/
def parseLine (line : Text) : Text × Text := (firstWord line, strip (afterWord line))

/-- The line is neither blank nor a comment. -/
def isField (line : Text) : Bool := line ≠ [] && line.head? ≠ some '#'

/-- `parse_entry`. -/
def parseEntry (filename text : Text) : LoaderEntry :=
  let raws := splitlines (text.dropWhile fun c => c = '\ufeff')
  ⟨filename, ((raws.map strip).filter isField).map parseLine,
    (raws.head?.map strip).filter fun line => line.head? = some '#'⟩

/-- What the header of a managed entry says. -/
structure ManagedMeta where
  template : Option Text
  role : Text
  deriving DecidableEq

/-- `[a-z]`. -/
def isLower (c : Char) : Bool := 'a' ≤ c && c ≤ 'z'

/-- `[A-Za-z0-9_]`. -/
def isPrefixChar (c : Char) : Bool :=
  isLower c || ('A' ≤ c && c ≤ 'Z') || ('0' ≤ c && c ≤ '9') || c = '_'

/-- `, role: ([a-z]+)\)` at the start of a text: the role. -/
def roleAt (s : Text) : Option Text :=
  if ", role: ".toList.isPrefixOf s then
    let rest := s.drop ", role: ".toList.length
    let role := rest.takeWhile isLower
    if role ≠ [] ∧ (rest.dropWhile isLower).head? = some ')' then some role else none
  else none

/-- `(.*?), role: ([a-z]+)\)` at the start of a text: the shortest template, and the role. -/
def scanTemplate : Text → Option (Text × Text)
  | [] => none
  | c :: s =>
    match roleAt (c :: s) with
    | some role => some ([], role)
    | none => if c = '\n' then none else (scanTemplate s).map fun p => (c :: p.1, p.2)

/-- The part of a managed header that comes before the template. -/
def headerStart : Text := "# sysforge-managed (template: ".toList

/-- `parse_managed_header`. -/
def parseManagedHeader (header : Option Text) : Option ManagedMeta :=
  match header with
  | none => none
  | some line =>
    if headerStart.isPrefixOf line then
      (scanTemplate (line.drop headerStart.length)).map fun p =>
        ⟨if p.1 = [] then none else some p.1, p.2⟩
    else none

/-- `.+\.conf` on a whole text. -/
def isConfName (s : Text) : Bool :=
  ".conf".toList.isSuffixOf s &&
    (s.take (s.length - 5) ≠ [] && '\n' ∉ s.take (s.length - 5))

/-- `sysforge-.+\.conf$` on a whole text, where `$` also matches before a last newline. -/
def isSysforgeTail (s : Text) : Bool :=
  "sysforge-".toList.isPrefixOf s &&
    (isConfName (s.drop 9) || (s.getLast? = some '\n' && isConfName (s.drop 9).dropLast))

/-- `is_sysforge_name`. -/
def isSysforgeName (filename : Text) : Bool :=
  isSysforgeTail filename ||
    (filename.takeWhile isPrefixChar ≠ [] &&
      (filename.dropWhile isPrefixChar).head? = some '-' &&
        isSysforgeTail (filename.dropWhile isPrefixChar).tail)

/-- `is_managed`: the name and the header both say so. -/
def isManaged (e : LoaderEntry) : Bool :=
  isSysforgeName e.filename && (parseManagedHeader e.header).isSome

/-- `validate_prefix` accepts the prefix. -/
def validPrefix (pre : Text) : Bool := pre ≠ [] && pre.all isPrefixChar

/-- `prefix + '-' if prefix else ''`. -/
def prefixPart : Option Text → Text
  | none => []
  | some [] => []
  | some p => p ++ ['-']

/-- `entry_filename`. -/
def entryFilename (kernel : Text) (pre : Option Text) : Text :=
  prefixPart pre ++ ("sysforge-".toList ++ kernel ++ ".conf".toList)

/-- `boots_kernel`. -/
def bootsKernel (e : LoaderEntry) (kernel : Text) : Bool :=
  e.linuxBasename = some ("vmlinuz-".toList ++ kernel)

/-- `_managed_kernel`. -/
def managedKernel (e : LoaderEntry) : Option Text :=
  e.linuxBasename.map fun b => if "vmlinuz-".toList.isPrefixOf b then b.drop 8 else b

/-! ## Rendering -/

/-- `_ROLE_TITLES.get(role, f"sysforge, {kernel}")`. -/
def roleTitle (role kernel : Text) : Text :=
  if role = "plain".toList then "sysforge".toList
  else if role = "profiling".toList then "sysforge, profiling".toList
  else if role = "autofdo".toList then "sysforge, AutoFDO".toList
  else if role = "propeller".toList then "sysforge, AutoFDO + Propeller".toList
  else "sysforge, ".toList ++ kernel

/-- `title_for`. -/
def titleFor (prettyName role kernel : Text) : Text :=
  prettyName ++ " (".toList ++ roleTitle role kernel ++ ")".toList

/-- `_swap_basename`. -/
def swapBasename (path newBase : Text) : Text := dirPart path ++ newBase

/-- The first line of a managed entry. -/
def headerLine (template role : Text) : Text :=
  headerStart ++ template ++ ", role: ".toList ++ role ++
    "); regenerated on every kernel build; edit the template instead".toList

/-- A value that Python takes as true: there, and not empty. -/
def truthy : Option Text → Option Text
  | none | some [] => none
  | some v => some v

/-- `/initramfs-{kernel}.img` and the like, without the slash. -/
def initramfs (kernel : Text) (suffix : String) : Text :=
  "initramfs-".toList ++ kernel ++ suffix.toList ++ ".img".toList

/-- An initrd of the template, for another kernel. -/
def swapInitrd (templateKernel kernel initrd : Text) : Text :=
  if baseName initrd ∈ [initramfs templateKernel "", initramfs templateKernel "-fallback"] then
    swapBasename initrd (initramfs kernel "")
  else initrd

/-- The kernel's path of a managed entry. -/
def linuxPath (template : LoaderEntry) (kernel : Text) : Text :=
  swapBasename ((truthy (template.get "linux")).getD ['/']) ("vmlinuz-".toList ++ kernel)

/-- The version line is written only beside a sort key. -/
def shownVersion (template : LoaderEntry) (version : Option Text) : Option Text :=
  if (truthy (template.get "sort-key")).isSome then truthy version else none

/-- The `key value` lines of a managed entry. -/
def renderFields (template : LoaderEntry) (templateKernel kernel title : Text)
    (version : Option Text) : List (String × Text) :=
  [("title", title)] ++
    ((truthy (template.get "sort-key")).map fun v => ("sort-key", v)).toList ++
    ((shownVersion template version).map fun v => ("version", v)).toList ++
    ["machine-id", "architecture"].filterMap
      (fun key => (truthy (template.get key)).map fun v => (key, v)) ++
    [("linux", linuxPath template kernel)] ++
    (template.getAll "initrd").map (fun v => ("initrd", swapInitrd templateKernel kernel v)) ++
    (template.getAll "options").map fun v => ("options", v)

/-- `render_entry`. -/
def renderEntry (template : LoaderEntry) (templateKernel kernel role title : Text)
    (version : Option Text) : Text :=
  joinLines (headerLine template.filename role ::
    (renderFields template templateKernel kernel title version).map fun f =>
      f.1.toList ++ ' ' :: f.2) ++ ['\n']

end Sysforge.Boot
