import Strongbox.Host.Stores
import Strongbox.Text.Quoted

/-!
# Engines on the disk

Tree files and log directories keep their contents while nobody has them open.  A tree file
needs an existing directory around it, and only one engine at a time may have it open.  A
log directory makes the directories above it, and its lock holds for the location as it is
spelled: an engine that opens the directory by another spelling goes on from what the
others have written, and from then on neither sees what the other writes.
-/

namespace Strongbox.Host

/-- The failure of an opening, in the words of the machine. -/
def cannotOpen (h : Host) (file : String) : StorageError := ⟨.opening, h.location file, none⟩

/-- The failure of an opening that finds a foreign table. -/
def foreignFailure (t : ForeignTable) : StorageError :=
  let found :=
    match t with
    | .numbers => "data is of type Table<u64, u64>"
    | .multimap => "data is a multimap table"
  ⟨.missingTable, "data: " ++ found, some ""⟩

/-- Makes an empty tree file at the end of a trail, which `file` leads along. -/
def makeTreeFile (h : Host) (t : Trail) (file : String) : Except StorageError MediumId × Host :=
  let (medium, h) := h.addMedium (.treeFile .empty)
  (.ok medium, (h.setPlace t (.treeFile medium)).tell (.openedTreeFile (h.location file)))

/-- Opens a tree file, making an empty one where there is none. -/
def openTreeFile (h : Host) (file : String) : Except StorageError MediumId × Host :=
  match h.follow file with
  | none => (.error (h.cannotOpen file), h)
  | some t =>
    match h.placeAt t with
    | none | some .blank => h.makeTreeFile t file
    | some (.foreign table) => (.error (foreignFailure table), h)
    | some (.treeFile medium) =>
      if h.isInUse medium then (.error (h.cannotOpen file), h)
      else (.ok medium, h.tell (.openedTreeFile (h.location file)))
    | some _ => (.error (h.cannotOpen file), h)

/-- The file of a log directory without which it cannot be opened. -/
def currentTrail (t : Trail) : Trail := "CURRENT" :: t

/-- Puts something at the end of a trail where there is nothing yet. -/
def setAbsent (h : Host) (t : Trail) (p : Place) : Host :=
  if (h.placeAt t).isNone then h.setPlace t p else h

/-- What else a log directory has from the start; its lock is an empty file. -/
def logParts : List (String × Place) :=
  [("IDENTITY", .logPart), ("LOCK", .blank), ("LOG", .logPart), ("MANIFEST-000005", .logPart),
    ("OPTIONS-000007", .logPart)]

/-- Makes an empty log directory at the end of a trail. -/
def makeLog (h : Host) (t : Trail) : MediumId × Host :=
  let (medium, h) := h.addMedium (.logDirectory .empty)
  let h := (h.setPlace t (.logDirectory medium)).setPlace (currentTrail t) .logPart
  (medium, logParts.foldl (fun h part => h.setAbsent (part.1 :: t) part.2) h)

/-- The medium of a log directory for one more engine: the one that it has, or a copy when
an engine already uses that; nothing when a run is gone. -/
def takeLog (h : Host) (t : Trail) (medium : MediumId) : Option (MediumId × Host) :=
  match h.media.find? medium with
  | some (.logDirectory d) =>
    if !d.isWhole then none
    else if h.isInUse medium then
      let (copy, h) := h.addMedium (.logDirectory d)
      some (copy, h.setPlace t (.logDirectory copy))
    else some (medium, h)
  | _ => none

/-- Finds or makes the log of a directory at the end of a trail. -/
def logAt (h : Host) (t : Trail) : Option (MediumId × Host) :=
  match h.placeAt t, h.placeAt (currentTrail t) with
  | some (.logDirectory medium), some .logPart => h.takeLog t medium
  | none, none => some (h.makeLog t)
  | some .directory, none => some (h.makeLog t)
  | _, _ => none

/-- Finds or makes the log of a directory, which no engine has locked under the same
location. -/
def findLog (h : Host) (file : String) : Except StorageError MediumId × Host :=
  match h.reach file with
  | (none, h) => (.error (h.cannotOpen file), h)
  | (some t, h) =>
    if h.isLocked file then (.error (h.cannotOpen file), h)
    else
      match h.logAt t with
      | some (medium, h) => (.ok medium, h)
      | none => (.error (h.cannotOpen file), h)

/-- The contents of a log directory that is opened after other programs wrote raw keys to
it. -/
def openContents (c : Contents) (raw : List (Bytes × Bytes)) : Contents :=
  match c with
  | .logDirectory d =>
    .logDirectory (raw.foldl (fun d e => d.putRaw e.1 e.2) d.reopened).reopened
  | c => c

/-- Opens a log directory, in which other programs have written the given entries. -/
def openLogDirectory (h : Host) (file : String) (raw : List (Bytes × Bytes)) :
    Except StorageError MediumId × Host :=
  match h.findLog file with
  | (.error e, h) => (.error e, h)
  | (.ok medium, h) =>
    let contents := openContents ((h.media.find? medium).getD default) raw
    let h := { h with media := h.media.insert medium contents }
    (.ok medium, h.tell (.openedLogDirectory (h.location file)))

/-- The location under which an engine keeps others off its directory. -/
def lockOf (kind : EngineKind) (file : String) : Option String :=
  match kind with
  | .logDirectory => some file
  | _ => none

/-- Names an engine over the medium that was opened at a location. -/
def addOnDisk (h : Host) (name : String) (kind : EngineKind) (file : String)
    (medium : MediumId) (face : Face) : Host :=
  let (handle, h) := h.addHandle medium face (lockOf kind file)
  h.bindEngine name handle

/-! ## What other programs do to files -/

/-- Another program writes a plain file. -/
def writeFile (h : Host) (file : String) (content : Bytes) : Host :=
  let p : Place := if content.isEmpty then .blank else .other
  match h.follow file with
  | none => h
  | some t =>
    match h.placeAt t with
    | some .directory | some (.logDirectory _) => h
    | some (.treeFile medium) => if h.isInUse medium then h else h.setPlace t p
    | _ => h.setPlace t p

/-- Another program puts a table into a tree file under the name of the engine's own. -/
def writeForeign (h : Host) (file : String) (table : ForeignTable) : Host :=
  match h.follow file with
  | none => h
  | some t =>
    match h.placeAt t with
    | none | some .blank => h.setPlace t (.foreign table)
    | some _ => h

/-- Damages every run of a log directory, after opening and closing it once, and says
whether there was one. -/
def damage (h : Host) (file : String) : Except StorageError Bool × Host :=
  match h.openLogDirectory file [] with
  | (.error e, h) => (.error e, h)
  | (.ok medium, h) =>
    match h.media.find? medium with
    | some (.logDirectory d) =>
      (.ok !d.runs.isEmpty,
        { h with media := h.media.insert medium (.logDirectory d.damage) })
    | _ => (.ok false, h)

/-! ## Engines by their kind -/

/-- The description of an engine on the disk: its kind and its place. -/
def describe (kind : EngineKind) (location : String) : String :=
  let name :=
    match kind with
    | .treeFile => "RedbBackend"
    | .logDirectory => "RocksDbBackend"
    | .volatile => "MemoryBackend"
    | .server => "PostgresBackend"
  name ++ " \x7b path: " ++ Text.quote location ++ ", .. \x7d"

/-- The failure of a store whose settings name an engine that is not part of this build. -/
def notBuilt (name feature : String) : StoreError :=
  .config s!"{name} backend requested but feature '{feature}' is not enabled"

/-- The failure of a connection to a database server, whose address is not repeated. -/
def noConnection (reason : String) : StorageError := ⟨.opening, "[redacted]", some reason⟩

/-- Connects to a database server. -/
def reachServer (h : Host) (connect : String → Except String MediumId) (address : String) :
    Except StorageError MediumId × Host :=
  match connect address with
  | .ok medium => (.ok medium, h.tell .reachedServer)
  | .error reason => (.error (noConnection reason), h)

/-- Opens a medium for a store, whose failures are those of its engine. -/
def forStore (r : Except StorageError MediumId × Host) : Except StoreError MediumId × Host :=
  match r with
  | (.ok medium, h) => (.ok medium, h)
  | (.error e, h) => (.error (.storage e), h)

/-- Opens the medium that a store's settings ask for. -/
def launch (h : Host) (kind : EngineKind) (file : String) : Except StoreError MediumId × Host :=
  match kind with
  | .volatile =>
    let (medium, h) := (h.tell .usesVolatile).addMedium (.volatile .empty)
    (.ok medium, h)
  | .treeFile =>
    if h.build.treeFile then
      forStore ((h.tell (.usesTreeFile (h.location file))).openTreeFile file)
    else (.error (notBuilt "redb" "redb-backend"), h)
  | .logDirectory =>
    if h.build.logDirectory then
      forStore ((h.tell (.usesLogDirectory (h.location file))).openLogDirectory file [])
    else (.error (notBuilt "RocksDB" "rocksdb-backend"), h)
  | .server =>
    match h.build.server with
    | some connect => forStore ((h.tell .usesServer).reachServer connect file)
    | none => (.error (notBuilt "PostgreSQL" "postgres-backend"), h)

/-- Opens a store over an engine of the kind that its settings name. -/
def openStoreAt (h : Host) (name : String) (ctx : Context) (file : String) (cipher : Aead) :
    Except StoreError Unit × Host :=
  match h.act name (Store.prepare ctx) with
  | (.error e, h) => (.error e, h)
  | (.ok (), h) =>
    let kind := (h.slot name).store.config.engine
    match h.launch kind file with
    | (.error e, h) => (.error e, h)
    | (.ok medium, h) =>
      let (handle, h) := h.addHandle medium .bare (lockOf kind file)
      match h.act name (Store.install cipher) with
      | (.ok (), h) => (.ok (), h.attach name (some handle))
      | (.error e, h) => (.error e, h)

end Strongbox.Host
