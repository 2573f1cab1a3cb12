import EuroOS.Eurofs.Reader

/-!
# The file system operations as programs

The operations of the `FileSystem` trait are programs over a small set of
commands: reading the tree, resolving a path, writing and dropping objects,
committing, and the fields of the session.  The block-level volume interprets
the commands here.
-/

namespace EuroOS

inductive ReadCmd
  | inode (oid : Oid)
  | data (inode : Inode)
  | entries (dirOid : Oid)
  | target (oid : Oid)
  | versioned (dirOid : Oid)
  | antiLoop (oid walk : Oid)

def ReadCmd.Ans : ReadCmd → Type
  | .inode _ => Inode
  | .data _ => Bytes
  | .entries _ => List Dirent
  | .target _ => Str
  | .versioned _ => Bool
  | .antiLoop _ _ => Unit

def Reader.answer (R : Reader) : (q : ReadCmd) → Except Fail q.Ans
  | .inode oid => R.readInode oid
  | .data inode => R.readData inode
  | .entries dirOid => R.readDirEntries dirOid
  | .target oid => R.readSymlinkTarget oid
  | .versioned dirOid => R.dirVersioned dirOid
  | .antiLoop oid walk => R.antiLoop oid walk

inductive FsCmd
  | read (q : ReadCmd)
  | resolve (path : Str) (followFinal : Bool)
  | writeObject (inode : Inode) (data : Bytes)
  | forgetObject (oid : Oid)
  | usageSub (uid : UInt32) (blocks : Nat)
  | commit
  | takeOid
  | getNow
  | setNow (now : UInt64)
  | getUid
  | setUid (uid : UInt32)
  | cacheInsert (path : Str) (oid : Oid)
  | cacheClear
  | snapshotCreate (label : Str) (flags : UInt32)
  | snapshotRollback (id : UInt64)
  | snapshotDelete (id : UInt64)
  | quotaSet (uid : UInt32) (limitBlocks : UInt64)
  | quotaInfo (uid : UInt32)
  | remount (now : UInt64)

def FsCmd.Ans : FsCmd → Type
  | .read q => q.Ans
  | .resolve _ _ => Oid
  | .takeOid => Oid
  | .getNow => UInt64
  | .getUid => UInt32
  | .snapshotCreate _ _ => UInt64
  | .quotaInfo _ => Nat × UInt64
  | _ => Unit

def fsSignature : Signature where
  Cmd := FsCmd
  Err := FsError
  Ans := FsCmd.Ans

abbrev FsProg := Program fsSignature

/-! ## The commands on the block-level volume -/

def answered {σ α : Type} (outcome : Except Fail α × σ) :
    Except Stop (Except FsError α × σ) :=
  match outcome with
  | (.ok a, s) => .ok (.ok a, s)
  | (.error (.err e), s) => .ok (.error e, s)
  | (.error (.stop reason), _) => .error reason

namespace FsState

def takeOid : Action FsState Oid := fun s =>
  match checkedSucc s.nextOid with
  | .ok next => (.ok s.nextOid, { s with nextOid := next })
  | .error e => (.error e, s)

def resolve (R : Reader) (path : Str) (followFinal : Bool) : Action FsState Oid := fun s =>
  match R.resolveFollow s.pathCache path followFinal with
  | (result, cache) => (result, { s with pathCache := cache })

def quotaInfo (s : FsState) (uid : UInt32) : Nat × UInt64 :=
  (s.usageOf uid, s.quotaLimits[uid]?.getD 0)

end FsState

def diskHandler [TwoxHash] : Handler fsSignature EuroFs := fun cmd fs =>
  match cmd with
  | .read q => answered (fs.reader.answer q, fs)
  | .resolve path followFinal =>
    answered (EuroFs.ofState (FsState.resolve fs.reader path followFinal) fs)
  | .writeObject inode data => answered (EuroFs.writeObject inode data fs)
  | .forgetObject oid => .ok (.ok (), fs.forgetObject oid)
  | .usageSub uid blocks =>
    .ok (.ok (), { fs with toFsState := fs.toFsState.usageSub uid blocks })
  | .commit => answered (EuroFs.commit fs)
  | .takeOid => answered (EuroFs.ofState FsState.takeOid fs)
  | .getNow => .ok (.ok fs.now, fs)
  | .setNow now => .ok (.ok (), { fs with now := now })
  | .getUid => .ok (.ok fs.ctxUid, fs)
  | .setUid uid => .ok (.ok (), { fs with ctxUid := uid })
  | .cacheInsert path oid =>
    .ok (.ok (), { fs with pathCache := fs.pathCache.insert path oid })
  | .cacheClear => .ok (.ok (), { fs with pathCache := ∅ })
  | .snapshotCreate label flags => answered (EuroFs.snapshotCreate label flags fs)
  | .snapshotRollback id => answered (EuroFs.snapshotRollback id fs)
  | .snapshotDelete id => answered (EuroFs.snapshotDelete id fs)
  | .quotaSet uid limitBlocks => answered (EuroFs.quotaSet uid limitBlocks fs)
  | .quotaInfo uid => .ok (.ok (fs.toFsState.quotaInfo uid), fs)
  | .remount now =>
    -- a volume that does not mount leaves no file system to go on with
    match EuroFs.mount fs.dev now with
    | .ok fs' => .ok (.ok (), fs')
    | .error _ => .error .halted

/-! ## Programs -/

inductive EntryKind
  | file
  | directory
  | symlink
  deriving DecidableEq

structure DirEntry where
  name : Str
  kind : EntryKind
  size : Nat
  mode : UInt16
  mtime : UInt64
  deriving DecidableEq

def kindOf (otype : UInt8) : EntryKind :=
  if otype = typeDir then .directory else if otype = typeSymlink then .symlink else .file

/-- The access check against the session uid: zero passes, the owner is judged
by the owner triple and everyone else by the last one. -/
def allowed (ctxUid : UInt32) (inode : Inode) (want : UInt16) : Bool :=
  if ctxUid = 0 then true
  else
    let triple := if inode.uid = ctxUid then (inode.mode >>> 6) &&& 7 else inode.mode &&& 7
    triple &&& want = want

namespace Fs

def call (cmd : FsCmd) : FsProg cmd.Ans := Program.call (S := fsSignature) cmd

def fail {α : Type} (e : FsError) : FsProg α := throw e

def readInode (oid : Oid) : FsProg Inode := call (.read (.inode oid))

def readData (inode : Inode) : FsProg Bytes := call (.read (.data inode))

def readDirEntries (dirOid : Oid) : FsProg (List Dirent) := call (.read (.entries dirOid))

def readSymlinkTarget (oid : Oid) : FsProg Str := call (.read (.target oid))

def resolve (path : Str) : FsProg Oid := call (.resolve path true)

def getUid : FsProg UInt32 := call .getUid

def getNow : FsProg UInt64 := call .getNow

def takeOid : FsProg Oid := call .takeOid

def writeObject (inode : Inode) (data : Bytes) : FsProg Unit := call (.writeObject inode data)

def forgetObject (oid : Oid) : FsProg Unit := call (.forgetObject oid)

def usageSub (uid : UInt32) (blocks : Nat) : FsProg Unit := call (.usageSub uid blocks)

def clearCache : FsProg Unit := call .cacheClear

def commit : FsProg Unit := call .commit

def pathExists (path : Str) : FsProg Bool := do
  let outcome ← (resolve path).attempt
  pure (match outcome with
    | .ok _ => true
    | .error _ => false)

def checkName (name : Str) : FsProg Unit :=
  if name.bytes.length > direntNameCap then fail .invalidPath else pure ()

def checkAccess (path : Str) (want : UInt16) : FsProg Unit := do
  let oid ← resolve path
  let inode ← readInode oid
  let uid ← getUid
  if allowed uid inode want then pure () else fail .permissionDenied

def checkParentWrite (path : Str) : FsProg Unit := checkAccess (parent path) 2

def rewriteDir (dirOid : Oid) (entries : List Dirent) : FsProg Unit := do
  let inode ← readInode dirOid
  writeObject { inode with extents := [], inlineData := [], size := 0 }
    (encodeDirEntries entries)

/-- The row of a directory listing for one entry, given its inode if readable. -/
def listRow (e : Dirent) : Option Inode → DirEntry
  | some inode =>
    { name := e.name
      kind := kindOf e.otype
      size := if e.otype = typeFile then inode.size else 0
      mode := inode.mode
      mtime := inode.mtime }
  | none =>
    { name := e.name
      kind := kindOf e.otype
      size := 0
      mode := if e.otype = typeDir then 0o755 else 0o644
      mtime := 0 }

def listRows : List Dirent → FsProg (List DirEntry)
  | [] => pure []
  | e :: rest => do
      let inode ← (readInode e.oid).attempt
      let rows ← listRows rest
      pure (listRow e (match inode with
        | .ok inode => some inode
        | .error _ => none) :: rows)

def listDir (path : Str) : FsProg (List DirEntry) := do
  checkAccess path 4
  let oid ← resolve path
  let entries ← readDirEntries oid
  listRows entries

def readFile (path : Str) : FsProg Bytes := do
  let oid ← resolve path
  let inode ← readInode oid
  if inode.otype ≠ typeFile then fail .notAFile
  else do
    let uid ← getUid
    if allowed uid inode 4 then readData inode else fail .permissionDenied

def readLink (path : Str) : FsProg Str := do
  let oid ← call (.resolve path false)
  readSymlinkTarget oid

def metadata (path : Str) : FsProg DirEntry := do
  let oid ← resolve path
  let inode ← readInode oid
  pure {
    name := filename path
    kind := kindOf inode.otype
    size := inode.size
    mode := inode.mode
    mtime := inode.mtime }

def getFlags (path : Str) : FsProg UInt32 := do
  let oid ← resolve path
  let inode ← readInode oid
  pure inode.flags

def owner (path : Str) : FsProg UInt32 := do
  let oid ← resolve path
  let inode ← readInode oid
  pure inode.uid

/-! ### Creating and removing -/

def createDir (path : Str) : FsProg Unit := do
  let uid ← getUid
  if uid ≠ 0 then checkParentWrite path else pure ()
  let parentOid ← resolve (parent path)
  let name := filename path
  if name = [] then pure ()
  else do
    checkName name
    let entries ← readDirEntries parentOid
    if entries.any fun e => e.name = name then fail .alreadyExists
    else do
      let oid ← takeOid
      let now ← getNow
      let uid ← getUid
      writeObject { Inode.new oid parentOid typeDir now with uid := uid } []
      rewriteDir parentOid (entries ++ [⟨name, oid, typeDir⟩])
      commit
      call (.cacheInsert path oid)

def createSymlink (path target : Str) : FsProg Unit := do
  let parentOid ← resolve (parent path)
  let name := filename path
  if name = [] then fail .invalidPath
  else do
    checkName name
    let entries ← readDirEntries parentOid
    if entries.any fun e => e.name = name then fail .alreadyExists
    else do
      let oid ← takeOid
      let now ← getNow
      let uid ← getUid
      writeObject { Inode.new oid parentOid typeSymlink now with uid := uid }
        target.bytes
      rewriteDir parentOid (entries ++ [⟨name, oid, typeSymlink⟩])
      commit

def removeFile (path : Str) : FsProg Unit := do
  checkParentWrite path
  let parentOid ← resolve (parent path)
  let name := filename path
  let entries ← readDirEntries parentOid
  match entries.findIdx? fun e =>
      e.name = name ∧ (e.otype = typeFile ∨ e.otype = typeSymlink) with
  | none => fail .notFound
  | some pos => do
      let oid := (entries.getD pos ⟨[], 0, 0⟩).oid
      let inode ← readInode oid
      if hasFlag inode.flags (flagImmutable ||| flagAppendOnly) then fail .permissionDenied
      else do
        usageSub inode.uid (dataBlocksOf inode)
        forgetObject oid
        rewriteDir parentOid (entries.eraseIdx pos)
        clearCache
        commit

def removeDir (path : Str) : FsProg Unit := do
  checkParentWrite path
  let oid ← resolve path
  if oid = rootOid then fail .invalidPath
  else do
    let inode ← readInode oid
    if inode.otype ≠ typeDir then fail .notADirectory
    else do
      let content ← readDirEntries oid
      if content ≠ [] then fail .notEmpty
      else do
        usageSub inode.uid (dataBlocksOf inode)
        let parentOid ← resolve (parent path)
        let name := filename path
        let entries ← readDirEntries parentOid
        match entries.findIdx? fun e => e.name = name ∧ e.otype = typeDir with
        | none => fail .notFound
        | some pos => do
            forgetObject oid
            rewriteDir parentOid (entries.eraseIdx pos)
            clearCache
            commit

def chmod (path : Str) (mode : UInt16) : FsProg Unit := do
  let oid ← resolve path
  let inode ← readInode oid
  let uid ← getUid
  if uid ≠ 0 ∧ uid ≠ inode.uid then fail .permissionDenied
  else if hasFlag inode.flags flagImmutable then fail .permissionDenied
  else do
    let data ← readData inode
    writeObject { inode with mode := mode &&& 0o7777 } data
    commit

def chown (path : Str) (uid : UInt32) : FsProg Unit := do
  let oid ← resolve path
  let inode ← readInode oid
  if hasFlag inode.flags flagImmutable then fail .permissionDenied
  else if inode.uid = uid then pure ()
  else do
    let data ← readData inode
    writeObject { inode with uid := uid } data
    commit

def setFlags (path : Str) (flags : UInt32) : FsProg Unit := do
  let oid ← resolve path
  let inode ← readInode oid
  if inode.otype ≠ typeFile ∧ ¬(inode.otype = typeDir ∧ flags &&& ~~~flagVersioned = 0) then
    fail .notAFile
  else do
    let data ← readData inode
    writeObject { inode with flags := flags } data
    commit

/-! ### Renaming -/

def renameWithin (dirOid oid : Oid) (entries : List Dirent) (oldName newName : Str) :
    FsProg Unit := do
  match entries.findIdx? fun e => e.name = newName with
  | some tp =>
    let target := entries.getD tp ⟨[], 0, 0⟩
    if target.oid = oid then pure ()
    else if target.otype = typeDir then fail .alreadyExists
    else do
      forgetObject target.oid
      renameEntry (entries.eraseIdx tp)
      clearCache
      commit
  | none => do
      renameEntry entries
      clearCache
      commit
where
  renameEntry (rest : List Dirent) : FsProg Unit :=
    match rest.findIdx? fun e => e.name = oldName with
    | none => fail .notFound
    | some pos => rewriteDir dirOid (rest.modify pos fun e => { e with name := newName })

def renameAcross (oldParent newParent oid : Oid) (otype : UInt8) (src : List Dirent)
    (oldName newName : Str) : FsProg Unit := do
  let dst ← readDirEntries newParent
  let dst ← match dst.findIdx? fun e => e.name = newName with
    | none => pure dst
    | some tp =>
      let target := dst.getD tp ⟨[], 0, 0⟩
      if target.otype = typeDir then fail .alreadyExists
      else do
        forgetObject target.oid
        pure (dst.eraseIdx tp)
  if otype = typeDir then do
    let inode ← readInode oid
    let inode := { inode with parent := newParent }
    let data ← readData inode
    writeObject inode data
  else pure ()
  rewriteDir oldParent (src.filter fun e => e.name ≠ oldName)
  rewriteDir newParent (dst ++ [⟨newName, oid, otype⟩])
  clearCache
  commit

def rename (old new : Str) : FsProg Unit := do
  checkParentWrite old
  checkParentWrite new
  let oldParent ← resolve (parent old)
  let oldName := filename old
  let newParent ← resolve (parent new)
  let newName := filename new
  if oldName = [] ∨ newName = [] then fail .invalidPath
  else do
    checkName newName
    let src ← readDirEntries oldParent
    match src.find? fun e => e.name = oldName with
    | none => fail .notFound
    | some e => do
        if e.otype = typeFile then do
          let inode ← readInode e.oid
          if hasFlag inode.flags (flagImmutable ||| flagAppendOnly) then fail .permissionDenied
          else pure ()
        else pure ()
        if e.otype = typeDir then call (.read (.antiLoop e.oid newParent)) else pure ()
        if oldParent = newParent then renameWithin oldParent e.oid src oldName newName
        else renameAcross oldParent newParent e.oid e.otype src oldName newName

/-! ### Writing files and keeping versions -/

abbrev maxVersions : Nat := 8

def settle (outcome : Except FsError Unit) : FsProg Unit :=
  match outcome with
  | .ok () => pure ()
  | .error e => fail e

def rotate (dir : Str) : List Nat → FsProg Unit
  | [] => pure ()
  | n :: rest => do
      let _ ← (removeFile (dir ++ '/' :: versionName n)).attempt
      rotate dir rest

def versionNumbers (rows : List DirEntry) : List Nat :=
  (rows.filterMap fun row => versionNumber row.name).insertionSort (· ≤ ·)

def nextVersion (nums : List Nat) : FsProg Nat :=
  match nums.getLast? with
  | none => pure 1
  | some n => if n + 1 < 2 ^ 32 then pure (n + 1) else Program.stop .halted

def ensureDir (path : Str) : FsProg Unit := do
  let found ← pathExists path
  if found then pure () else createDir path

/-- Store content as the next version of a path; `write` is the file writer. -/
def saveVersionInner (write : Bytes → Str → FsProg Unit) (path : Str) (oldData : Bytes)
    (oldMtime : UInt64) : FsProg Unit := do
  ensureDir versionsDir
  let dir := keyDir path
  ensureDir dir
  let existing ← listDir dir
  let nums := versionNumbers existing
  let next ← nextVersion nums
  let clock ← getNow
  call (.setNow oldMtime)
  let written ← (write oldData (dir ++ '/' :: versionName next)).attempt
  call (.setNow clock)
  settle written
  rotate dir (nums.take (nums.length + 1 - maxVersions))

def saveVersion (write : Bytes → Str → FsProg Unit) (path : Str) (oldData : Bytes)
    (oldMtime : UInt64) : FsProg Unit := do
  let savedUid ← getUid
  call (.setUid 0)
  let saved ← (saveVersionInner write path oldData oldMtime).attempt
  call (.setUid savedUid)
  settle saved

def createFile (data : Bytes) (parentOid : Oid) (entries : List Dirent) (name : Str) :
    FsProg Unit := do
  let pdir ← readInode parentOid
  let uid ← getUid
  if allowed uid pdir 2 = false then fail .permissionDenied
  else do
    let oid ← takeOid
    let now ← getNow
    writeObject { Inode.new oid parentOid typeFile now with uid := uid } data
    rewriteDir parentOid (entries ++ [⟨name, oid, typeFile⟩])
    commit

def keepsVersions (path : Str) (old : Inode) (parentOid : Oid) : FsProg Bool :=
  if versionsDir <+: path then pure false
  else if hasFlag old.flags flagVersioned then pure true
  else call (.read (.versioned parentOid))

/-- Replace the content of an existing file; `save` keeps the old content. -/
def overwriteFile (save : Str → Bytes → UInt64 → FsProg Unit) (path : Str) (data : Bytes)
    (parentOid oid : Oid) : FsProg Unit := do
  let old ← readInode oid
  let uid ← getUid
  if allowed uid old 2 = false then fail .permissionDenied
  else do
    let versioned ← keepsVersions path old parentOid
    if versioned then do
      let oldData ← readData old
      if oldData ≠ data then save path oldData old.mtime else pure ()
    else pure ()
    if hasFlag old.flags flagImmutable then fail .permissionDenied
    else do
      if hasFlag old.flags flagAppendOnly then do
        let oldData ← readData old
        if oldData <+: data then pure () else fail .permissionDenied
      else pure ()
      let now ← getNow
      writeObject { Inode.new oid parentOid typeFile now with
        flags := old.flags, uid := old.uid, mode := old.mode } data
      commit

def writeFileStep (save : Str → Bytes → UInt64 → FsProg Unit)
    (follow : Str → Oid → FsProg Unit) (data : Bytes) (path : Str) : FsProg Unit := do
  let name := filename path
  if name = [] then fail .invalidPath
  else do
    checkName name
    let parentOid ← resolve (parent path)
    let entries ← readDirEntries parentOid
    match entries.find? fun e => e.name = name with
    | none => createFile data parentOid entries name
    | some e =>
      if e.otype = typeDir then fail .notAFile
      else if e.otype = typeSymlink then follow (parent path) e.oid
      else overwriteFile save path data parentOid e.oid

def linkTarget (parentPath target : Str) : Str :=
  if Reader.isAbsolute target then target
  else if parentPath = ['/'] then '/' :: target
  else parentPath ++ '/' :: target

/-- `write_file_impl` with the number of links that may still be followed. -/
def writeFileImpl (save : Str → Bytes → UInt64 → FsProg Unit) (data : Bytes) :
    Nat → Str → FsProg Unit
  | 0, path => writeFileStep save (fun _ _ => fail .invalidPath) data path
  | left + 1, path => writeFileStep save (fun parentPath link => do
      let target ← readSymlinkTarget link
      writeFileImpl save data left (linkTarget parentPath target)) data path

/-- The writer of the version store.  It creates a new file, and so never comes
to keep a version itself. -/
def writeVersion (data : Bytes) (path : Str) : FsProg Unit :=
  writeFileImpl (fun _ _ _ => Program.stop .halted) data symlinkMaxHops path

def writeFile (path : Str) (data : Bytes) : FsProg Unit :=
  writeFileImpl (saveVersion writeVersion) data symlinkMaxHops path

def listInternal : List Dirent → FsProg (List (Str × Nat × UInt64))
  | [] => pure []
  | e :: rest => do
      let inode ← (readInode e.oid).attempt
      let rows ← listInternal rest
      pure ((match inode with
        | .ok inode => (e.name, inode.size, inode.mtime)
        | .error _ => (e.name, 0, 0)) :: rows)

def listDirInternal (path : Str) : FsProg (List (Str × Nat × UInt64)) := do
  let oid ← resolve path
  let entries ← readDirEntries oid
  listInternal entries

def versions (path : Str) : FsProg (List (Nat × Nat × UInt64)) := do
  let found ← pathExists path
  if found then checkAccess path 4 else pure ()
  let rows ← (listDirInternal (keyDir path)).attempt
  match rows with
  | .error _ => pure []
  | .ok rows =>
    pure ((rows.filterMap fun row => (versionNumber row.1).map fun n => (n, row.2)).insertionSort
      fun a b => b.1 ≤ a.1)

def restoreVersion (path : Str) (n : Nat) : FsProg Unit := do
  let saved ← getUid
  call (.setUid 0)
  let data ← (readFile (keyDir path ++ '/' :: versionName n)).attempt
  call (.setUid saved)
  match data with
  | .error e => fail e
  | .ok data => writeFile path data

end Fs

/-! ## Operations and runs -/

inductive FsOp
  | readFile (path : Str)
  | writeFile (path : Str) (data : Bytes)
  | removeFile (path : Str)
  | createDir (path : Str)
  | createSymlink (path target : Str)
  | readLink (path : Str)
  | rename (old new : Str)
  | removeDir (path : Str)
  | listDir (path : Str)
  | pathExists (path : Str)
  | metadata (path : Str)
  | owner (path : Str)
  | getFlags (path : Str)
  | setFlags (path : Str) (flags : UInt32)
  | chmod (path : Str) (mode : UInt16)
  | chown (path : Str) (uid : UInt32)
  | versions (path : Str)
  | restoreVersion (path : Str) (n : Nat)
  | quotaSet (uid : UInt32) (limitBlocks : UInt64)
  | quotaInfo (uid : UInt32)
  | snapshotCreate (label : Str) (flags : UInt32)
  | snapshotRollback (id : UInt64)
  | snapshotDelete (id : UInt64)
  | setUidContext (uid : UInt32)
  | setClock (now : UInt64)
  | remount (now : UInt64)
  deriving DecidableEq

inductive FsVal
  | unit
  | bytes (data : Bytes)
  | text (s : Str)
  | rows (entries : List DirEntry)
  | row (entry : DirEntry)
  | flag (b : Bool)
  | word (n : UInt32)
  | versions (l : List (Nat × Nat × UInt64))
  | quota (used : Nat) (limit : UInt64)
  | snapshot (id : UInt64)
  deriving DecidableEq

namespace FsOp

def program : FsOp → FsProg FsVal
  | .readFile path => .bytes <$> Fs.readFile path
  | .writeFile path data => (fun _ => .unit) <$> Fs.writeFile path data
  | .removeFile path => (fun _ => .unit) <$> Fs.removeFile path
  | .createDir path => (fun _ => .unit) <$> Fs.createDir path
  | .createSymlink path target => (fun _ => .unit) <$> Fs.createSymlink path target
  | .readLink path => .text <$> Fs.readLink path
  | .rename old new => (fun _ => .unit) <$> Fs.rename old new
  | .removeDir path => (fun _ => .unit) <$> Fs.removeDir path
  | .listDir path => .rows <$> Fs.listDir path
  | .pathExists path => .flag <$> Fs.pathExists path
  | .metadata path => .row <$> Fs.metadata path
  | .owner path => .word <$> Fs.owner path
  | .getFlags path => .word <$> Fs.getFlags path
  | .setFlags path flags => (fun _ => .unit) <$> Fs.setFlags path flags
  | .chmod path mode => (fun _ => .unit) <$> Fs.chmod path mode
  | .chown path uid => (fun _ => .unit) <$> Fs.chown path uid
  | .versions path => .versions <$> Fs.versions path
  | .restoreVersion path n => (fun _ => .unit) <$> Fs.restoreVersion path n
  | .quotaSet uid limitBlocks => (fun _ => .unit) <$> Fs.call (.quotaSet uid limitBlocks)
  | .quotaInfo uid => (fun info => .quota info.1 info.2) <$> Fs.call (.quotaInfo uid)
  | .snapshotCreate label flags => .snapshot <$> Fs.call (.snapshotCreate label flags)
  | .snapshotRollback id => (fun _ => .unit) <$> Fs.call (.snapshotRollback id)
  | .snapshotDelete id => (fun _ => .unit) <$> Fs.call (.snapshotDelete id)
  | .setUidContext uid => (fun _ => .unit) <$> Fs.call (.setUid uid)
  | .setClock now => (fun _ => .unit) <$> Fs.call (.setNow now)
  | .remount now => (fun _ => .unit) <$> Fs.call (.remount now)

end FsOp

end EuroOS
