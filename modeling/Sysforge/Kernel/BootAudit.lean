import Sysforge.Foundations.Dict
import Sysforge.Foundations.Lines

/-!
# The boot-critical symbols of a kernel config

A `.config` is parsed into its options, and the audit lists the symbols that the root topology
requires and the config does not enable. A config that the audit finds no brick in enables every
brick-class symbol.
-/

namespace Sysforge.Kernel

open Text

/-! ## Configs -/

/-- The options of a `.config`. -/
abbrev Kconfig := Dict Text Text

/-- What a line of a `.config` sets. -/
def kconfigLine (line : Text) : Option (Text × Text) :=
  let line := strip line
  if "CONFIG_".toList.isPrefixOf line && decide ('=' ∈ line) then
    some (strip (line.takeWhile (· ≠ '=')), strip ((line.dropWhile (· ≠ '=')).drop 1))
  else if "# CONFIG_".toList.isPrefixOf line && "is not set".toList.isSuffixOf line then
    (words line)[1]?.map fun k => (k, "n".toList)
  else none

/-- `parse_kconfig_text`. -/
def parseKconfigText (text : Text) : Kconfig := .ofItems ((splitlines text).filterMap kconfigLine)

/-- `is_enabled`. -/
def isEnabled (config : Kconfig) (symbol : String) : Bool :=
  config.get symbol.toList = some "y".toList || config.get symbol.toList = some "m".toList

/-! ## The symbols -/

/-- `RootTopology`. -/
structure RootTopology where
  rootFstype : Option String := none
  transports : List String := []
  usesCrypt : Bool := false
  usesLvm : Bool := false
  usesRaid : Bool := false

/-- A boot-critical symbol: what needs it, and whether its absence bricks the system. -/
structure BootSymbol where
  symbol : String
  reason : String
  isBrick : Bool
  deriving DecidableEq

/-- `_CORE_BOOT_KCONFIG`. -/
def coreBootKconfig : List (String × String) :=
  [("CONFIG_MODULES", "loadable module support"),
    ("CONFIG_BLK_DEV_INITRD", "initramfs support"),
    ("CONFIG_DEVTMPFS", "/dev population (devtmpfs)"),
    ("CONFIG_TMPFS", "tmpfs"),
    ("CONFIG_PROC_FS", "/proc filesystem"),
    ("CONFIG_SYSFS", "/sys filesystem"),
    ("CONFIG_BINFMT_ELF", "ELF binary support"),
    ("CONFIG_UNIX", "UNIX domain sockets")]

/-- `_SYSTEMD_KCONFIG`. -/
def systemdKconfig : List (String × String) :=
  [("CONFIG_CGROUPS", "control groups (systemd requires)"),
    ("CONFIG_INOTIFY_USER", "inotify (systemd requires)"),
    ("CONFIG_EPOLL", "epoll (systemd requires)"),
    ("CONFIG_SIGNALFD", "signalfd (systemd requires)"),
    ("CONFIG_TIMERFD", "timerfd (systemd requires)"),
    ("CONFIG_NET", "networking core (systemd requires)")]

/-- `_CONSOLE_KCONFIG`. -/
def consoleKconfig : List (String × String) :=
  [("CONFIG_TTY", "TTY layer"), ("CONFIG_VT", "virtual terminal / console")]

/-- `_ROOT_FS_KCONFIG`. -/
def rootFsKconfig : List (String × String) :=
  [("ext4", "CONFIG_EXT4_FS"), ("ext3", "CONFIG_EXT4_FS"), ("ext2", "CONFIG_EXT4_FS"),
    ("btrfs", "CONFIG_BTRFS_FS"), ("xfs", "CONFIG_XFS_FS"), ("f2fs", "CONFIG_F2FS_FS"),
    ("vfat", "CONFIG_VFAT_FS")]

/-- `_STORAGE_KCONFIG`. -/
def storageKconfig : List (String × String) :=
  [("nvme", "CONFIG_BLK_DEV_NVME"), ("ahci", "CONFIG_SATA_AHCI"), ("virtio", "CONFIG_VIRTIO_BLK"),
    ("mmc", "CONFIG_MMC_BLOCK"), ("usb", "CONFIG_USB_STORAGE"),
    ("xen", "CONFIG_XEN_BLKDEV_FRONTEND")]

/-- `_CRYPT_KCONFIG`. -/
def cryptKconfig : List (String × String) :=
  [("CONFIG_DM_CRYPT", "dm-crypt (encrypted root)"), ("CONFIG_BLK_DEV_DM", "device-mapper")]

/-- `_LVM_KCONFIG`. -/
def lvmKconfig : List (String × String) := [("CONFIG_BLK_DEV_DM", "device-mapper (LVM root)")]

/-- `_RAID_KCONFIG`. -/
def raidKconfig : List (String × String) :=
  [("CONFIG_BLK_DEV_MD", "md/RAID block device (RAID root)"),
    ("CONFIG_MD", "multiple-device / RAID support")]

/-- What is added before the de-duplication. -/
def bootSymbols (topology : RootTopology) : List BootSymbol :=
  let brick (q : String × String) : BootSymbol := ⟨q.1, q.2, true⟩
  let fs (t : String) : Option BootSymbol :=
    (rootFsKconfig.lookup t).map fun s => ⟨s, "root filesystem (" ++ t ++ ")", true⟩
  let storage (t : String) : Option BootSymbol :=
    (storageKconfig.lookup t).map fun s => ⟨s, "root storage controller (" ++ t ++ ")", true⟩
  coreBootKconfig.map brick ++ systemdKconfig.map brick ++
    consoleKconfig.map (fun q => ⟨q.1, q.2, false⟩) ++
    (topology.rootFstype.bind fs).toList ++ topology.transports.filterMap storage ++
    (if topology.usesCrypt then cryptKconfig.map brick else []) ++
    (if topology.usesLvm then lvmKconfig.map brick else []) ++
    (if topology.usesRaid then raidKconfig.map brick else [])

/-- The first entry of each symbol, given the symbols seen. -/
def firstOfSymbol : List String → List BootSymbol → List BootSymbol
  | _, [] => []
  | seen, s :: ss =>
    if s.symbol ∈ seen then firstOfSymbol seen ss
    else s :: firstOfSymbol (s.symbol :: seen) ss

/-- `_required_boot_symbols`. -/
def requiredBootSymbols (topology : RootTopology) : List BootSymbol :=
  firstOfSymbol [] (bootSymbols topology)

/-! ## The audit -/

/-- `KernelFinding`. -/
structure KernelFinding where
  severity : String
  checkId : String
  message : String
  remediation : String
  isBrick : Bool

/-- `audit_resolved_config`, but for its advisory findings about devices; an unreadable config has no
options. -/
def auditResolvedConfig (config : Option Kconfig) (path : String) (topology : RootTopology) :
    List KernelFinding :=
  match config with
  | none =>
    [⟨"warn", "kconfig_unreadable", "could not read resolved kernel .config at " ++ path,
      "Boot-critical config could not be validated before install.", false⟩]
  | some parsed =>
    ((requiredBootSymbols topology).filter fun s => !isEnabled parsed s.symbol).map fun s =>
      ⟨if s.isBrick then "error" else "warn", "boot_kconfig:" ++ s.symbol,
        s.symbol ++ " is not enabled: needed for " ++ s.reason ++ ".",
        "Set " ++ s.symbol ++ "=y (or =m) before building this kernel.", s.isBrick⟩

/-- The config enables every brick-class symbol of the topology. -/
def Boots (topology : RootTopology) (config : Kconfig) : Prop :=
  ∀ s ∈ requiredBootSymbols topology, s.isBrick = true → isEnabled config s.symbol = true

/-- **What an audit without bricks says.** -/
theorem boots_of_audit {config : Kconfig} {path : String} {topology : RootTopology}
    (h : (auditResolvedConfig (some config) path topology).filter KernelFinding.isBrick = []) :
    Boots topology config := by
  intro s hs hbrick
  by_contra hoff
  have hfind := List.filter_eq_nil_iff.mp h
  refine hfind _ (List.mem_map.mpr ⟨s, List.mem_filter.mpr ⟨hs, ?_⟩, rfl⟩) hbrick
  rw [Bool.not_eq_true'] at *
  exact Bool.eq_false_iff.mpr hoff

end Sysforge.Kernel
