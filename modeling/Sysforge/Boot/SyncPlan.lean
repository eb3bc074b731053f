import Mathlib.Data.List.Lex
import Mathlib.Data.Char
import Sysforge.Boot.LoaderEntry

/-!
# The plan of a boot-entry sync

`plan_sync` decides from the entries that are there, the installed images and the wanted kernels
which managed entries to write and which to delete; `apply_plan` performs the writes and then the
deletes.
-/

namespace Sysforge.Boot

open Text

/-- The entry that managed entries are cloned from, and the kernel it boots. -/
structure Template where
  entry : LoaderEntry
  kernel : Text

structure WantedKernel where
  kernel : Text
  role : Text
  version : Option Text

structure SyncPlan where
  writes : List (Text × Text) := []
  deletes : List Text := []
  notes : List Text := []
  info : List Text := []
  skipped : List Text := []

/-- The arguments of `plan_sync` besides the entries, and which paths exist under `/boot`. -/
structure Request where
  template : Template
  wanted : List WantedKernel
  images : List Text
  namePrefix : Option Text
  prettyName : Text
  bootExists : Text → Bool

/-- The directory of the entries: names and texts. -/
abbrev Files := Dict Text Text

/-- `load_entries`. -/
def loadEntries (files : Files) : List LoaderEntry :=
  (files.sorted.filter fun p => ".conf".toList.isSuffixOf p.1).map fun p => parseEntry p.1 p.2

/-- `plan_prune`: the managed entries whose image is not installed. -/
def planPrune (entries : List LoaderEntry) (images : List Text) : List Text :=
  (entries.filter fun e => isManaged e && (managedKernel e).all fun k => k ∉ images).map (·.filename)

/-- `/vmlinuz-{kernel}` and `/initramfs-{kernel}.img`, which a kernel about to be installed
brings. -/
def ownImages (kernel : Text) : List Text :=
  ["/vmlinuz-".toList ++ kernel, '/' :: initramfs kernel ""]

/-- A path of an entry exists, or will with the kernel. -/
def resolves (r : Request) (kernel path : Text) : Bool :=
  (kernel ∈ r.images && path ∈ ownImages kernel) || r.bootExists (path.dropWhile fun c => c = '/')

/-- `missing_references`. -/
def missingReferences (r : Request) (rendered kernel : Text) : List Text :=
  (((parseEntry [] rendered).lines.filter fun p =>
    p.1 = "linux".toList ∨ p.1 = "initrd".toList).map Prod.snd).filter fun path =>
      !resolves r kernel path

/-- `effective_prefix`: a template with a sort key ignores the prefix. -/
def effectivePrefix (t : Template) (namePrefix : Option Text) : Option Text :=
  if (truthy (t.entry.get "sort-key")).isSome then none else namePrefix

/-- The targets that the managed entries give: an installed kernel keeps its role and version. -/
def managedTarget (images : List Text) (d : Dict Text (Text × Option Text)) (e : LoaderEntry) :
    Dict Text (Text × Option Text) :=
  match managedKernel e with
  | none => d
  | some k =>
    if k ∈ images then
      match parseManagedHeader e.header with
      | none => d
      | some m => d.set k (m.role, e.get "version")
    else d

/-- The targets that the wanted kernels give. -/
def wantedTarget (d : Dict Text (Text × Option Text)) (w : WantedKernel) :
    Dict Text (Text × Option Text) :=
  d.set w.kernel (w.role, (truthy w.version).or ((d.get w.kernel).bind Prod.snd))

/-- The kernels that get an entry, with role and version: wanted kernels win. -/
def targets (entries : List LoaderEntry) (r : Request) : Dict Text (Text × Option Text) :=
  r.wanted.foldl wantedTarget ((entries.filter isManaged).foldl (managedTarget r.images) .empty)

/-- The name of a kernel's entry. -/
def nameFor (r : Request) (kernel : Text) : Text :=
  entryFilename kernel (effectivePrefix r.template r.namePrefix)

/-- The text of a kernel's entry. -/
def renderFor (r : Request) (kernel role : Text) (version : Option Text) : Text :=
  renderEntry r.template.entry r.template.kernel kernel role (titleFor r.prettyName role kernel)
    version

def removedNote (kernel name : Text) : Text :=
  "removed sysforge entry ".toList ++ name ++ ": your own entry already boots ".toList ++ kernel

def takenNote (name : Text) : Text :=
  "cannot write ".toList ++ name ++
    (": an entry you own already has that name; " ++
      "rename it, or set boot_entries_prefix").toList

def missingNote (name : Text) (missing : List Text) : Text :=
  "cannot write ".toList ++ name ++ ": it would reference ".toList ++
    List.intercalate ", ".toList missing ++
    (", which do not exist under /boot; set boot_entries = \"off\" and " ++
      "write this entry by hand").toList

/-- The body of the loop of `plan_sync`, for one target. -/
def planKernel (entries : List LoaderEntry) (r : Request) (kernel role : Text)
    (version : Option Text) : SyncPlan :=
  let ours := ((entries.filter isManaged).filter fun e => managedKernel e = some kernel).map
    (·.filename)
  let name := nameFor r kernel
  let rendered := renderFor r kernel role version
  let missing := missingReferences r rendered kernel
  if (entries.filter fun e => !isManaged e).any fun e => bootsKernel e kernel then
    { deletes := ours, notes := ours.map (removedNote kernel) }
  else if entries.any fun e => e.filename = name && !isManaged e then
    { notes := [takenNote name], skipped := [kernel] }
  else if missing ≠ [] then
    { notes := [missingNote name missing], skipped := [kernel] }
  else { writes := [(name, rendered)], deletes := ours.filter fun n => n ≠ name }

def prefixInfo (r : Request) : List Text :=
  if (truthy (r.template.entry.get "sort-key")).isSome ∧ (truthy r.namePrefix).isSome then
    [("boot_entries_prefix ignored: your entries use sort-key " ++
      "(sysforge copies the sort-key instead)").toList]
  else []

/-- `plan_sync`. -/
def planSync (entries : List LoaderEntry) (r : Request) : SyncPlan :=
  let parts := (targets entries r).sorted.map fun t => planKernel entries r t.1 t.2.1 t.2.2
  { writes := parts.flatMap (·.writes)
    deletes := (planPrune entries r.images ++ parts.flatMap (·.deletes)).eraseDups
    notes := parts.flatMap (·.notes)
    info := prefixInfo r
    skipped := parts.flatMap (·.skipped) }

/-- The file is there and is not sysforge's. -/
def ownedByOperator (files : Files) (name : Text) : Bool :=
  (files.get name).any fun text => !isManaged (parseEntry name text)

/-- The lines that a dry run shows. -/
def shown (plan : SyncPlan) : List Text :=
  plan.writes.flatMap (fun p => ("[dry-run] would write ".toList ++ p.1 ++ [':']) ::
    (splitlines p.2).map fun line => "    ".toList ++ line) ++
  plan.deletes.map fun name => "[dry-run] would remove ".toList ++ name

/-- `apply_plan`: the ownership checks come first, then the writes, then the deletes. -/
def applyPlan (plan : SyncPlan) (dryRun : Bool) (files : Files) : Except Text (List Text × Files) :=
  match plan.deletes.find? (ownedByOperator files) with
  | some name =>
    .error ("[KERNEL] refusing to remove ".toList ++ name ++ ": not sysforge-managed".toList)
  | none =>
    match (plan.writes.map Prod.fst).find? (ownedByOperator files) with
    | some name =>
      .error ("[KERNEL] refusing to overwrite ".toList ++ name ++ ": not sysforge-managed".toList)
    | none =>
      if dryRun then .ok (shown plan, files)
      else
        let files := plan.writes.foldl (fun d p => d.set p.1 p.2) files
        .ok ([], plan.deletes.foldl (fun d name => d.erase name) files)

end Sysforge.Boot
