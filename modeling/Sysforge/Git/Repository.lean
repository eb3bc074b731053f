import Sysforge.Foundations.Dict
import Sysforge.Foundations.Lines

/-!
# A git checkout

The commits and refs of a repository, its index and working tree, and the git commands that a sync
runs on it, with the text that each prints. What git leaves open is in the state: the renames that
`git status` detects and the hunks that `git diff` finds.
-/

namespace Sysforge.Git

open Text

/-- A file: its lines, and whether it is executable. -/
structure Blob where
  lines : List Text
  executable : Bool := false
  deriving DecidableEq

/-- The files of a commit, of the index or of the working tree. -/
abbrev Tree := Dict Text Blob

/-- The commits that git knows. -/
structure History (κ : Type*) where
  /-- the commits reachable from one, itself included -/
  ancestors : κ → List κ
  tree : κ → Tree
  author : κ → Text
  committer : κ → Text
  mem_ancestors_self : ∀ c, c ∈ ancestors c
  ancestors_trans : ∀ {a b c}, b ∈ ancestors c → a ∈ ancestors b → a ∈ ancestors c
  oneLine_author : ∀ c, OneLine (author c)
  oneLine_committer : ∀ c, OneLine (committer c)

/-- What a branch can have as its upstream. -/
inductive Ref
  | head (branch : Text)
  | remote (name : Text)
  deriving DecidableEq

/-- `HEAD`. -/
inductive Head (κ : Type*)
  | branch (name : Text)
  | detached (c : κ)

/-- A checkout. -/
structure Repo (κ : Type*) where
  heads : Dict Text κ
  /-- the remote-tracking branches, as `origin/master` -/
  remotes : Dict Text κ
  tags : Dict Text κ
  stash : List κ
  head : Head κ
  upstream : Dict Text Ref
  fetchHead : Option κ
  index : Tree
  worktree : Tree
  /-- the pairs in which `git status` sees a rename -/
  renames : List (Text × Text)
  userEmail : Option Text

namespace Repo

variable {κ : Type*} (h : History κ) (r : Repo κ)

/-- The commit of `HEAD`; a branch without a commit has none. -/
def headCommit : Option κ :=
  match r.head with
  | .branch b => r.heads.get b
  | .detached c => some c

/-- The files of `HEAD`. -/
def headTree : Tree := (r.headCommit.map h.tree).getD .empty

/-- The upstream of the current branch, when it resolves. -/
def upstreamRef : Option Ref :=
  match r.head with
  | .branch b => r.upstream.get b
  | .detached _ => none

/-- The commit of a ref. -/
def resolve : Ref → Option κ
  | .head b => r.heads.get b
  | .remote n => r.remotes.get n

/-- `@{u}`: the upstream and its commit. -/
def upstreamCommit : Option (Ref × κ) :=
  r.upstreamRef.bind fun u => (r.resolve u).map fun c => (u, c)

/-- A tracked file of which the index or the working tree differs from `HEAD`. -/
def Differs (p : Text) : Prop :=
  (r.headTree h).get p ≠ r.index.get p ∨ r.index.get p ≠ none ∧ r.worktree.get p ≠ r.index.get p

end Repo

/-- `git rev-parse --abbrev-ref --symbolic-full-name`. -/
def Ref.abbrev : Ref → Text
  | .head b => b
  | .remote n => n

/-! ## What git prints -/

/-- The letter of a control character in a quoted path. -/
def escapes : List (Char × Char) :=
  [('\x07', 'a'), ('\x08', 'b'), ('\t', 't'), ('\n', 'n'), ('\x0b', 'v'), ('\x0c', 'f'), ('\r', 'r')]

/-- A character that a path is printed with as it is. -/
def isPlain (c : Char) : Bool := 0x21 ≤ c.toNat && c.toNat ≤ 0x7e && c ≠ '"' && c ≠ '\\'

/-- An octal digit. -/
def octalDigit (n : ℕ) : Char := Char.ofNat (0x30 + n % 8)

/-- A byte as git escapes it. -/
def octal (b : UInt8) : Text :=
  ['\\', octalDigit (b.toNat / 64), octalDigit (b.toNat / 8), octalDigit b.toNat]

/-- A character inside quotes. -/
def quoteChar (c : Char) : Text :=
  if isPlain c || c = ' ' then [c]
  else if c = '"' || c = '\\' then ['\\', c]
  else match escapes.lookup c with
    | some e => ['\\', e]
    | none => (String.utf8EncodeChar c).flatMap octal

/-- A path as `git status --short` prints it. -/
def quote (p : Text) : Text :=
  if p ≠ [] ∧ p.all isPlain then p else '"' :: p.flatMap quoteChar ++ ['"']

/-- The first status letter: the index against `HEAD`. -/
def codeX (head index : Option Blob) : Char :=
  if head = index then ' ' else if head = none then 'A' else if index = none then 'D' else 'M'

/-- The second status letter: the working tree against the index. -/
def codeY (index worktree : Option Blob) : Char :=
  if index = none ∨ worktree = index then ' ' else if worktree = none then 'D' else 'M'

namespace Repo

variable {κ : Type*} (h : History κ) (r : Repo κ)

/-- The renames that `git status` reports: of a file that the index has lost, to one it has gained. -/
def detected : List (Text × Text) :=
  r.renames.filter fun q =>
    ((r.headTree h).get q.1).isSome && (r.index.get q.1).isNone &&
      ((r.headTree h).get q.2).isNone && (r.index.get q.2).isSome

/-- The line of a path in `git status --short --untracked-files=no`. -/
def statusLine (p : Text) : Option Text :=
  let x := codeX ((r.headTree h).get p) (r.index.get p)
  let y := codeY (r.index.get p) (r.worktree.get p)
  match (r.detected h).find? fun q => q.2 = p with
  | some q => some ('R' :: y :: ' ' :: quote q.1 ++ " -> ".toList ++ quote p)
  | none =>
    if (r.detected h).any (fun q => q.1 = p) || (x = ' ' && y = ' ') then none
    else some (x :: y :: ' ' :: quote p)

/-- `git status --short --untracked-files=no`. -/
def status : Text :=
  unlines (((r.headTree h).keys ++ r.index.keys).dedup.filterMap (r.statusLine h))

end Repo

/-- A hunk, with the lines kept before it. -/
structure Hunk where
  kept : List Text
  /-- what follows `@@ ` in its header -/
  ranges : Text
  removed : List Text
  added : List Text

/-- The hunks lead from the first lines to the second, with the lines kept after them. -/
def Leads (hunks : List Hunk) (tail old new : List Text) : Prop :=
  old = hunks.flatMap (fun u => u.kept ++ u.removed) ++ tail ∧
    new = hunks.flatMap (fun u => u.kept ++ u.added) ++ tail

/-- How git compares files. -/
structure Differ where
  hunks : List Text → List Text → List Hunk
  tail : List Text → List Text → List Text
  leads : ∀ old new, Leads (hunks old new) (tail old new) old new
  /-- the abbreviated name of an object -/
  objectId : Option Blob → Text

/-- The mode of a file. -/
def mode (b : Blob) : Text := (if b.executable then "100755" else "100644").toList

/-- The lines of a diff that say what becomes of the file's mode. -/
def modeLines : Option Blob → Option Blob → List Text
  | none, some b => ["new file mode ".toList ++ mode b]
  | some a, none => ["deleted file mode ".toList ++ mode a]
  | some a, some b =>
    if a.executable = b.executable then []
    else ["old mode ".toList ++ mode a, "new mode ".toList ++ mode b]
  | none, none => []

/-- The lines of a file; a missing one has none. -/
def linesOf (b : Option Blob) : List Text := (b.map Blob.lines).getD []

/-- A hunk as `git diff -U0` prints it. -/
def Hunk.print (u : Hunk) : List Text :=
  ("@@ ".toList ++ u.ranges) :: u.removed.map ('-' :: ·) ++ u.added.map ('+' :: ·)

/-- `git diff -U0 --no-color` of one file. -/
def diff (d : Differ) (p : Text) (old new : Option Blob) : Text :=
  let body := ["index ".toList ++ d.objectId old ++ "..".toList ++ d.objectId new,
      "--- a/".toList ++ p, "+++ b/".toList ++ p] ++
    (d.hunks (linesOf old) (linesOf new)).flatMap Hunk.print
  if old = new then []
  else unlines (("diff --git a/".toList ++ p ++ " b/".toList ++ p) :: modeLines old new ++
    if linesOf old = linesOf new then [] else body)

namespace Repo

variable {κ : Type*} [DecidableEq κ] (h : History κ) (r : Repo κ)

/-- The file that `git diff HEAD` compares with the commit's. -/
def tracked (p : Text) : Option Blob := if r.index.get p = none then none else r.worktree.get p

/-- The commits of `from..to`. -/
def range (h : History κ) (a b : κ) : List κ := (h.ancestors b).filter (· ∉ h.ancestors a)

/-- `git log --format=%ae%n%ce`. -/
def log (cs : List κ) : Text := unlines (cs.flatMap fun c => [h.author c, h.committer c])

/-- `git branch -r --contains HEAD` prints a branch. -/
def remoteContains : Bool :=
  r.headCommit.any fun c => r.remotes.items.any fun q => c ∈ h.ancestors q.2

/-! ## What git changes -/

/-- The checkout with the files of a commit, those in `keep` left as they are. -/
def checkout (c : κ) (keep : List Text) : Repo κ :=
  let put (d : Tree) (t : Tree) (p : Text) : Tree :=
    match d.get p with
    | some b => t.set p b
    | none => t.erase p
  let gone := r.index.keys.filter fun p => (h.tree c).get p = none
  { r with
    index := keep.foldl (put r.index) (h.tree c)
    worktree := keep.foldl (put r.worktree)
      ((gone.foldl (fun t p => t.erase p) r.worktree).update (h.tree c)) }

/-- The current branch, or a detached `HEAD`, moved to a commit. -/
def moveHead (c : κ) : Repo κ :=
  match r.head with
  | .branch b => { r with heads := r.heads.set b c }
  | .detached _ => { r with head := .detached c }

/-- `git reset --hard`. -/
def resetHard (c : κ) : Repo κ := (r.moveHead c).checkout h c []

/-- The tracked files that differ. -/
def edited : List Text :=
  ((r.headTree h).keys ++ r.index.keys).dedup.filter fun p =>
    (r.headTree h).get p ≠ r.index.get p ∨ r.index.get p ≠ none ∧ r.worktree.get p ≠ r.index.get p

/-- Moving to the commit leaves the edited files alone. -/
def compatible (c : κ) : Bool :=
  (r.edited h).all fun p => (r.headTree h).get p = (h.tree c).get p

/-- `git merge --ff-only`. -/
def mergeFf (c : κ) : Option (Repo κ) :=
  if (r.headCommit.any fun b => b ∈ h.ancestors c) && r.compatible h c then
    some ((r.moveHead c).checkout h c (r.edited h))
  else none

/-- `pkgctl repo switch`: a checkout of the release's tag. -/
def switchVersion (c : κ) : Option (Repo κ) :=
  if r.compatible h c then
    some ({ r with head := .detached c }.checkout h c (r.edited h))
  else none

end Repo

end Sysforge.Git
