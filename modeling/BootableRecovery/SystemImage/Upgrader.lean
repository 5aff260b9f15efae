import BootableRecovery.SystemImage.Shell

/-!
# The image upgrader

The script `system-image-upgrader`, which runs the commands of a file, with the functions they use.
`set -e` is in force, so a command that fails ends the script. The directory that a keyring is
unpacked in, the log files and the repair of a link to `vendor` are left out, and what follows the
loop over the commands.
-/

namespace BootableRecovery.SystemImage

variable (tools : Tools)

/-! ## Keyrings -/

def systemImage (name : Text) : Text := "/tmp/system-image/".toList ++ name

/-- The value of `GNUPGHOME` for a keyring. -/
def homeOf (keyring : Text) : Text := systemImage keyring ++ "/".toList

def archiveMaster : Text := "archive-master".toList
def imageMaster : Text := "image-master".toList
def imageSigning : Text := "image-signing".toList
def deviceSigning : Text := "device-signing".toList
def blacklist : Text := "blacklist".toList
def unknown : Text := "unknown".toList

/-- `[ ! -e $text ]`, which does not hold of several words. -/
def isMissing (fs : Fs) (cwd : Path) (text : Text) : Bool :=
  match expand tools fs cwd text with
  | [path] => !isPresent fs cwd path
  | _ => false

/-- `verify_signature`: whether it returns 0. -/
def verifySignature (fs : Fs) (cwd : Path) (keyring path : Text) : Bool :=
  if isMissing tools fs cwd path then false
  else if isPresent fs [] (homeOf blacklist ++ "pubring.gpg".toList) &&
      (tools.gpg.verify fs cwd (homeOf blacklist) (expand tools fs cwd path)).isSome then false
  else if !isDir fs (homeOf keyring) then false
  else (tools.gpg.verify fs cwd (homeOf keyring) (expand tools fs cwd path)).isSome

/-- `grep "^    \"name\": " keyring.json | cut -d: -f2 | sed -e "s/[, \"]//g"`, without the newlines
at the end. -/
def jsonField (name json : Text) : Text :=
  let start := "    \"".toList ++ name ++ "\": ".toList
  let values := ((json.splitOn '\n').filter fun line => start <+: line).map fun line =>
    ((line.splitOn ':').getD 1 []).filter fun c => !(c = ',' || c = ' ' || c = '"')
  substitution values

/-- A number of `test`. -/
def testNumber (s : Text) : Option Int :=
  (digitsValue 10 (signOf s).2).map fun n => if (signOf s).1 then -(n : Int) else n

/-- `[ -n "$keyring_expiry" ] && [ "$keyring_expiry" -lt "$(date +%s)" ]`. -/
def isExpired (expiry : Text) : Bool := (testNumber expiry).any (· < tools.now)

/-- The start of `install_keyring`: a keyring is unpacked, and its type and its keys are read. -/
def readKeyring (tarball : Bytes) : Option (Text × Node Bytes) :=
  let r := untar tools [] [] tarball .empty
  if !r.1 then none
  else match r.2 ["keyring.json".toList], r.2 ["keyring.gpg".toList] with
    | some json, some keyring =>
      let text := match json with
        | .file content => textOf content
        | .dir => []
      let type := jsonField "type".toList text
      if isExpired tools (jsonField "expiry".toList text) then none
      else if type = [] then none
      else some (type, keyring)
    | _, _ => none

/-- The keyring that has to sign a keyring of a type. -/
def signer (type : Text) : Text :=
  if type = archiveMaster then []
  else if type = imageMaster then archiveMaster
  else if type = imageSigning ∨ type = blacklist then imageMaster
  else if type = deviceSigning then imageSigning
  else unknown

/-- What the script uses, each with the files at the time of the check of the signature and the
names that gpg gets. -/
inductive Event
  /-- A tarball is unpacked. -/
  | unpacked (fs : Fs) (cwd : Path) (signature : List Text) (tarball : Bytes)
  /-- A keyring is installed. -/
  | installed (fs : Fs) (cwd : Path) (path : Text) (signature : List Text) (type : Text)
    (tarball : Bytes)

structure State where
  fs : Fs
  /-- The working directory. -/
  cwd : Path
  /-- `SYSTEM_PARTITION` -/
  systemPartition : Text
  /-- `DATA_FORMAT` -/
  dataFormat : Bool
  /-- `FULL_IMAGE` -/
  fullImage : Bool
  events : List Event

/-- The directory with the keyrings. -/
def keyringDir : Path := ["tmp".toList, "system-image".toList]

/-- `TMPDIR`, which is removed at the end. -/
def tmpDir : Path := keyringDir ++ ["tmp.XXXXXXXXXX".toList]

def installed (fs : Fs) (type : Text) (keyring : Node Bytes) : Fs :=
  (fs.put (resolve [] (systemImage type)) .dir).put
  (resolve [] (homeOf type ++ "pubring.gpg".toList)) keyring

/-- `install_keyring`, with its arguments. -/
def installKeyring (s : State) (args : List Text) : Option State :=
  let path := args.getD 0 []
  let signature := args.getD 1 []
  if !isPresent s.fs s.cwd path || !isPresent s.fs s.cwd signature then none
  else (xzcat s.fs tmpDir (expand tools s.fs tmpDir path)).bind fun tarball =>
    (readKeyring tools tarball).bind fun (type, keyring) =>
      let name := (expand tools s.fs tmpDir signature).getD 0 []
      if isPresent s.fs [] (systemImage type) then none
      else if signer type ≠ [] && !verifySignature tools s.fs tmpDir (signer type) name then none
      else some { s with
        fs := installed s.fs type keyring
        cwd := tmpDir
        events :=
          s.events ++ [.installed s.fs tmpDir path (expand tools s.fs tmpDir name) type tarball] }

/-! ## Settings -/

def propDir : Path := ["data".toList, "android-data".toList, "property".toList]

def propertyWrite (prop value : Text) (fs : Fs) : Option Fs :=
  (mkdirs propDir fs).bind (writeFile (propDir ++ [prop]) value)

def usbConfig : Text := "persist.sys.usb.config".toList

/-- `grep -q -s text "$prop_dir/$prop"`. -/
def propertyHas (fs : Fs) (text : String) : Bool :=
  (fs.content (propDir ++ [usbConfig])).any fun content => text.toList <:+: textOf content

def usbEnable (value : String) (fs : Fs) : Option Fs :=
  let value := if propertyHas fs "mtp" && value = "adb" then "mtp,adb" else value
  let value := if propertyHas fs "adb" && value = "mtp" then "mtp,adb" else value
  propertyWrite usbConfig value.toList fs

def usbDisable (value : String) (fs : Fs) : Option Fs :=
  let remain := if propertyHas fs "mtp" && value = "adb" then "mtp" else ""
  let remain := if propertyHas fs "adb" && value = "mtp" then "adb" else remain
  propertyWrite usbConfig (if remain = "" then "adb" else remain).toList fs

/-- `adb_onlock` and `factory_wipe`: a flag is set or deleted, after a format of the data only. -/
def setFlag (s : State) (flag : String) (on : Bool) : Option Fs :=
  if !s.dataFormat then none
  else if on then touch ["data".toList, flag.toList] s.fs
  else rmFile ["data".toList, flag.toList] s.fs

def adbOnlock (s : State) (on : Bool) : Option Fs := setFlag s ".adb_onlock" on

def factoryWipe (s : State) (on : Bool) : Option Fs := setFlag s ".factory_wipe" on

/-- What `set_password` has a shell run. -/
def passwordCommand (password : Text) : List Text :=
  ["chroot".toList, "/cache/system".toList, "/bin/sh".toList, "-c".toList,
    "echo -n phablet:".toList ++ password ++ " | chpasswd".toList]

/-- `set_password`, with its arguments. -/
def setPassword (s : State) (args : List Text) : Option Fs :=
  let password := args.getD 0 []
  if !s.dataFormat then none
  else if password = [] then none
  else runs tools (passwordCommand password) s.fs

def unsetPassword (s : State) : Option Fs := if !s.dataFormat then none else some s.fs

/-- The command `enable`. -/
def enable (s : State) (target value : Text) : Option Fs :=
  if target = "developer_mode".toList then usbEnable "adb" s.fs
  else if target = "mtp".toList then usbEnable "mtp" s.fs
  else if target = "default_password".toList
    then setPassword tools s (expand tools s.fs s.cwd value)
  else if target = "adb_onlock".toList then adbOnlock s true
  else if target = "factory_wipe".toList then factoryWipe s true
  else some s.fs

/-- The command `disable`. -/
def disable (s : State) (target : Text) : Option Fs :=
  if target = "developer_mode".toList then usbDisable "adb" s.fs
  else if target = "mtp".toList then usbDisable "mtp" s.fs
  else if target = "default_password".toList then unsetPassword s
  else if target = "adb_onlock".toList then adbOnlock s false
  else if target = "factory_wipe".toList then factoryWipe s false
  else some s.fs

/-! ## Partitions -/

def texts (words : List String) : List Text := words.map String.toList

/-- The words of `$SYSTEM_PARTITION`. -/
def State.partition (s : State) : List Text := expand tools s.fs s.cwd s.systemPartition

/-- The target `system` of `format`. -/
def formatSystem (s : State) : Option Fs :=
  let images := ["system.img", "android-rootfs.img", "rootfs.img", "ubuntu.img"]
  (images.foldlM (fun fs image => rmFile ["data".toList, image.toList] fs) s.fs).bind fun fs =>
    let fs := tries tools (texts ["umount", "/system_root"]) fs
    runs tools ("mkfs.ext4".toList :: s.partition tools) fs

/-- What is removed for a name in `/data`: the cache is kept. -/
def wipeEntry (cwd : Path) (fs : Fs) (entry : Text) : Fs :=
  if entry = "/data/cache".toList then fs
  else if entry = "/data/android-data".toList then
    ((expand tools fs cwd "/data/android-data/*".toList).filter
      (· ≠ "/data/android-data/cache".toList)).foldl (rmTrees tools cwd) fs
  else rmTrees tools cwd fs entry

/-- The target `data` of `format`. -/
def formatData (s : State) : Option Fs :=
  let fs := tries tools (texts ["mount", "/data"]) s.fs
  let entries :=
    expand tools fs s.cwd "/data/*".toList ++ texts ["/data/.writable_image", "/data/.factory_wipe"]
  (usbEnable "mtp" (entries.foldl (wipeEntry tools s.cwd) fs)).bind
    (runs tools (texts ["umount", "/data"]))

/-- The command `format`. -/
def format (s : State) (target : Text) : Option State :=
  if target = "system".toList then (formatSystem tools s).map fun fs =>
  { s with fs, fullImage := true }
  else if target = "data".toList then (formatData tools s).map fun fs =>
    { s with fs, dataFormat := true }
  else some s

/-- `check_filesystem`, with its arguments. -/
def checkFilesystem (s : State) (args : List Text) (fs : Fs) : Option Fs :=
  let image := args.getD 0 []
  if isMissing tools fs s.cwd image then none
  else
    let r := tools.program (texts ["e2fsck", "-yf"] ++ expand tools fs s.cwd image) fs
    if r.1 ≠ 0 ∧ r.1 ≠ 1 then none else some r.2

def systemMountpoint : Path := ["cache".toList, "system".toList]

/-- The command `mount`. -/
def mount (s : State) (target : Text) : Option Fs :=
  if target = "system".toList then
    (mkdirs systemMountpoint s.fs).bind fun fs =>
      let fs := tries tools ("umount".toList :: s.partition tools) fs
      let fs := tries tools (texts ["umount", "/cache/system"]) fs
      let fs := tries tools (texts ["umount", "/system_root"]) fs
      (checkFilesystem tools s (s.partition tools) fs).bind
        (runs tools ("mount".toList :: s.partition tools ++ texts ["/cache/system"]))
  else some s.fs

/-- The command `unmount`. -/
def unmount (s : State) (target : Text) : Option Fs :=
  if target = "system".toList then
    (runs tools (texts ["umount", "/cache/system"]) s.fs).bind
      (runs tools (texts ["rmdir", "/cache/system"]))
  else some s.fs

/-! ## Commands -/

/-- The script goes on, or it ends. -/
inductive Outcome
  | next (s : State)
  | exit (s : State)

def Outcome.state : Outcome → State
  | .next s => s
  | .exit s => s

/-- A function of the script that may fail. -/
def orExit (s : State) (r : Option State) (k : State → Outcome) : Outcome :=
  match r with
  | some s => k s
  | none => .exit s

def recovery (name : Text) : Text := "/cache/recovery/".toList ++ name

def blacklistTarball : Text := "/data/system-data/var/lib/system-image/blacklist.tar.xz".toList
def blacklistSignature : Text :=
  "/data/system-data/var/lib/system-image/blacklist.tar.xz.asc".toList

/-- Whether a blacklist is loaded that was stored before. -/
def loadsBlacklist (fs : Fs) : Bool :=
  isPresent fs [] (homeOf imageMaster ++ "pubring.gpg".toList) &&
    !isPresent fs [] (homeOf blacklist ++ "pubring.gpg".toList) &&
    isPresent fs [] blacklistTarball && isPresent fs [] blacklistSignature

/-- The arguments that `load_keyring` gives to `install_keyring`. -/
def keyringArgs (s : State) (tarball signature : Text) : List Text :=
  expand tools s.fs s.cwd (recovery tarball) ++ expand tools s.fs s.cwd (recovery signature)

/-- The command `load_keyring`. -/
def loadKeyring (s : State) (tarball signature : Text) : Outcome :=
  if !isPresent s.fs [] (recovery tarball) || !isPresent s.fs [] (recovery signature) then .next s
  else orExit s (installKeyring tools s (keyringArgs tools s tarball signature)) fun s =>
    if loadsBlacklist s.fs
      then orExit s (installKeyring tools s [blacklistTarball, blacklistSignature]) .next
    else .next s

def cache : Path := ["cache".toList]

/-- The directory that `update` works in, with a name in it. -/
def inCache (name : String) : Path := ["cache".toList, name.toList]

/-- The tarball in the directory that `update` works in. -/
def inRecovery (tarball : Text) : Text := "recovery/".toList ++ tarball

/-- What is unpacked of the names that `$2` stands for. -/
def tarballOf (fs : Fs) (tarball : Text) : Option Bytes :=
  xzcat fs cache (expand tools fs cache (inRecovery tarball))

/-- Removal of the files that the file `removed` lists. -/
def removeListed (fs : Fs) : Fs :=
  let lines := match fs.content (inCache "removed") with
    | some content => readLines (textOf content)
    | none => []
  lines.foldl (rmTrees tools cache) fs

/-- The file `removed` of a tarball is unpacked, if there is one. -/
def unpackRemoved (tarball : Option Bytes) (fs : Fs) : Fs :=
  match tarball with
  | some tarball => (untar tools cache ["removed".toList] tarball fs).2
  | none => fs

/-- Start by removing any file listed in "removed". -/
def removeFirst (tarball : Option Bytes) (fs : Fs) : Option Fs :=
  rmFile (inCache "removed") (removeListed tools (unpackRemoved tools tarball fs))

/-- Whether a name in `data` is moved to `/data`: one that starts with a dot is not, and no
directory is replaced. -/
def isMoved (fs : Fs) (x : Text) : Bool :=
  x.head? ≠ some '.' && (fs (inCache "data" ++ [x])).isSome && fs ["data".toList, x] ≠ some .dir

/-- `mv data/* /data/`. -/
def moveData (fs : Fs) : Fs
  | dir :: x :: rest =>
    if dir = "data".toList ∧ isMoved fs x then fs (inCache "data" ++ x :: rest)
      else fs (dir :: x :: rest)
  | p => fs p

/-- A partition is flashed if there is an image for it. -/
def flashImage (fs : Fs) (image : Path) (path : Text) : Fs :=
  match fs.content image with
  | some content =>
    if isPresent fs cache path then (fs.put (resolve cache path) (.file content)).rm image else fs
  | none => fs

/-- One line of the file `/etc/fstab`. -/
def flashLine (fs : Fs) (line : Text) : Fs :=
  let words := expand tools fs cache line
  let path := words.getD 0 []
  let mountPoint := words.getD 1 []
  let part := if mountPoint.head? = some '/' then mountPoint.tail else mountPoint
  flashImage fs (resolve cache ("partitions/".toList ++ part ++ ".img".toList)) path

/-- The lines of `/etc/fstab`. -/
def fstab (fs : Fs) : List Text :=
  match contentOf fs [] "/etc/fstab".toList with
  | some content => grepLines (textOf content)
  | none => []

/-- `grep "^/dev" /etc/fstab | while read line`. -/
def deviceLines (fs : Fs) : List Text :=
  readLines (((fstab fs).filter fun line => "/dev".toList <+: line).flatMap (· ++ ['\n']))

/-- Process partition images. -/
def flash (fs : Fs) : Fs := (deviceLines fs).foldl (flashLine tools) fs

/-- The end of `update`, after everything was unpacked. -/
def finishUpdate (tarball : Text) (fs : Fs) : Option Fs :=
  (rmFile (inCache "removed") fs).bind fun fs =>
    rmFiles tools cache (inRecovery tarball) (flash tools ((moveData fs).rmTree (inCache "data")))

/-- The signature that `update` checks: the files and the working directory then, and the names that
gpg gets. -/
structure Checked where
  fs : Fs
  cwd : Path
  names : List Text

/-- A tarball is handed to tar. -/
def State.unpacks (s : State) (checked : Checked) (tarball : Option Bytes) : State :=
  { s with events := s.events ++
      (tarball.map (Event.unpacked checked.fs checked.cwd checked.names)).toList }

/-- Unpack everything else on top of the system partition. -/
def unpackAll (s : State) (checked : Checked) (tarball : Text) : Outcome :=
  let bytes := tarballOf tools s.fs tarball
  let s := s.unpacks checked bytes
  match bytes with
  | none => .exit s
  | some bytes =>
    let r := untar tools cache [] bytes s.fs
    if !r.1 then .exit { s with fs := r.2 }
    else orExit s ((finishUpdate tools tarball r.2).map fun fs => { s with fs }) .next

/-- The command `update` after the check of the signature. -/
def applyUpdate (s : State) (checked : Checked) (tarball : Text) : Outcome :=
  let fs := (s.fs.rmTree (inCache "partitions")).rmTree (inCache "data")
  let s := { s with fs, cwd := cache }
  if s.fullImage then unpackAll tools s checked tarball
  else
    let bytes := tarballOf tools s.fs tarball
    let s := s.unpacks checked bytes
    orExit s ((removeFirst tools bytes s.fs).map fun fs => { s with fs })
      fun s => unpackAll tools s checked tarball

/-- The name that `update` gives to `verify_signature`. -/
def signatureName (s : State) (signature : Text) : Text :=
  (expand tools s.fs s.cwd (recovery signature)).getD 0 []

/-- The command `update`. -/
def update (s : State) (tarball signature : Text) : Outcome :=
  let name := signatureName tools s signature
  if !isPresent s.fs [] (recovery tarball) || !isPresent s.fs [] (recovery signature) then .next s
  else if !verifySignature tools s.fs s.cwd deviceSigning name &&
      !verifySignature tools s.fs s.cwd imageSigning name then .exit s
  else applyUpdate tools s ⟨s.fs, s.cwd, expand tools s.fs s.cwd name⟩ tarball

/-- A line of the command file. -/
def processLine (s : State) (line : Text) : Outcome :=
  let words := expand tools s.fs s.cwd line
  let command := words.getD 0 []
  let goOn (fs : Option Fs) := orExit s (fs.map fun fs => { s with fs }) .next
  if command = "format".toList then orExit s (format tools s (words.getD 1 [])) .next
  else if command = "enable".toList then goOn (enable tools s (words.getD 1 []) (words.getD 2 []))
  else if command = "disable".toList then goOn (disable s (words.getD 1 []))
  else if command = "load_keyring".toList
    then loadKeyring tools s (words.getD 1 []) (words.getD 2 [])
  else if command = "mount".toList then goOn (mount tools s (words.getD 1 []))
  else if command = "unmount".toList then goOn (unmount tools s (words.getD 1 []))
  else if command = "update".toList then update tools s (words.getD 1 []) (words.getD 2 [])
  else .next s

/-- The loop over the command file. -/
def run (s : State) : List Text → State
  | [] => s
  | line :: lines =>
    match processLine tools s line with
    | .next s => run s lines
    | .exit s => s

/-- `SYSTEM_PARTITION`: the first field of the lines of `/etc/fstab` for `/system_root`. -/
def systemPartition (fs : Fs) : Text :=
  let lines := (fstab fs).filter fun line =>
    line.head?.any (· ≠ '#') && decide ("/system_root".toList <:+: line)
  let fields := substitution (lines.map fun line => (line.splitOn ' ').headD [])
  if fields = [] then "emmc@android".toList else fields

/-- Initialize GPG. -/
def start (fs : Fs) : Outcome :=
  let fs := (fs.rmTree keyringDir).put keyringDir .dir
  let s : State :=
    { fs, cwd := [], systemPartition := systemPartition fs, dataFormat := false
      fullImage := false, events := [] }
  let path := "/etc/system-image/archive-master.tar.xz".toList
  if isPresent fs [] path then orExit s (installKeyring tools s [path, path ++ ".asc".toList]) .next
  else .next s

/-- The files after the command file was renamed. -/
def applying (fs : Fs) (commandFile : Text) (commands : Bytes) : Fs :=
  (fs.rm (resolve [] commandFile)).put (resolve [] (commandFile ++ ".applying".toList))
  (.file commands)

end BootableRecovery.SystemImage
