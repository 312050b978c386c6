import SqlDialect.Text.Utf8

/-!
# Locations of embedded databases

A name of an embedded database is the path of its file, or an address `file:path?name=value&…`. In an address `%` and
two hexadecimal digits stand for a byte, a zero byte ends the part that it stands in, and what follows a `#` does not
count. The parameters say how the file is accessed and through which driver. Without a path, and for the path
`:memory:`, there is no file.

* `Location.read` reads a name; `read_of_path` says that any other name is a path.
-/

namespace SqlDialect

/-- How a file is accessed. -/
inductive Access where
  | readOnly
  | readWrite
  /-- The file is also made if there is none. -/
  | make
  /-- There is no file. -/
  | memory
  deriving DecidableEq, Repr

namespace Access

/-- The access with a name. -/
def ofName? : String → Option Access
  | "ro" => some .readOnly
  | "rw" => some .readWrite
  | "rwc" => some .make
  | "memory" => some .memory
  | _ => none

/-- May the access be changed to another one? Only memory may follow and be followed by any. -/
def allows : Access → Access → Bool
  | _, .memory | .memory, _ | .make, _ => true
  | .readWrite, other => other != .make
  | .readOnly, other => other == .readOnly

end Access

/-- Where an embedded database is kept. -/
inductive Location where
  /-- Nowhere: it ends with the run. -/
  | transient
  /-- In the file at a path. -/
  | file (path : String) (access : Access)
  deriving DecidableEq, Repr

namespace Location

/-- Why a database is not opened. -/
inductive Fault where
  /-- The address names a machine other than this one. -/
  | authority (machine : String)
  | unknownCache (value : String)
  | unknownAccess (value : String)
  /-- The access goes beyond that of a parameter before it. -/
  | excessAccess (value : String)
  | unknownDriver (name : String)
  /-- The name holds a zero character, at the given byte. -/
  | zero (position : Nat)
  /-- There is no such file, and none can be made. -/
  | unopened
  deriving DecidableEq, Repr

/-- The fault in words, for a database of the given name. -/
def Fault.message (name : String) : Fault → String
  | authority machine => "invalid uri authority: " ++ machine
  | unknownCache value => "no such cache mode: " ++ value
  | unknownAccess value => "no such access mode: " ++ value
  | excessAccess value => "access mode not allowed: " ++ value
  | unknownDriver driver => "no such vfs: " ++ driver
  | zero position => "nul byte found in provided data at position: " ++ toString position
  | unopened => "unable to open database file: " ++ name

/-! ## Parts of an address -/

/-- The bytes of a part of an address, up to a zero byte. -/
def partBytes : Text → List UInt8
  | '%' :: a :: b :: rest =>
    match hexDigit? a, hexDigit? b with
    | some m, some n => if 16 * m + n = 0 then [] else UInt8.ofNat (16 * m + n) :: partBytes rest
    | _, _ => 0x25 :: partBytes (a :: b :: rest)
  | c :: rest => String.utf8EncodeChar c ++ partBytes rest
  | [] => []

/-- The text of a part of an address. -/
def partText (part : Text) : String := String.ofList (Utf8.decodeLossy (partBytes part))

/-- The parameters of an address with their values. Those without a name do not count. -/
def parameters (query : Text) : List (String × String) :=
  let parameter (part : String) : String × String :=
    (partText (part.toList.takeWhile (· ≠ '=')), partText ((part.toList.dropWhile (· ≠ '=')).drop 1))
  (((String.ofList query).splitOn "&").map parameter).filter fun (name, _) => !name.isEmpty

/-- The path and parameters of an address without its machine. -/
def splitPath (address : Text) : Text × Text :=
  (address.takeWhile (· ≠ '?'), (address.dropWhile (· ≠ '?')).drop 1)

/-- An address behind its two slashes and the machine, if it names one: none, or this one. -/
def dropMachine : Text → Except Fault Text
  | '/' :: '/' :: rest =>
    let machine := rest.takeWhile (· ≠ '/')
    if machine = [] ∨ machine = "localhost".toList then .ok (rest.dropWhile (· ≠ '/'))
    else .error (.authority (String.ofList machine))
  | address => .ok address

/-! ## Parameters -/

/-- The drivers that keep a database in a file. -/
def fileDrivers : List String := ["unix", "unix-none", "unix-dotfile", "unix-excl"]

/-- The driver that keeps a database in memory. -/
def memoryDriver : String := "memdb"

/-- What the parameters of an address say. -/
structure Mode where
  access : Access := .make
  driver : String := "unix"
  deriving DecidableEq, Repr

/-- The mode with one more parameter. -/
def Mode.add (mode : Mode) : String × String → Except Fault Mode
  | ("vfs", value) => .ok { mode with driver := value }
  | ("cache", value) => if value = "shared" ∨ value = "private" then .ok mode else .error (.unknownCache value)
  | ("mode", value) =>
    match Access.ofName? value with
    | none => .error (.unknownAccess value)
    | some access =>
      if mode.access.allows access then .ok { mode with access := access } else .error (.excessAccess value)
  | _ => .ok mode

/-! ## Names -/

/-- The location that a path names under a mode. -/
def ofPath (path : String) (mode : Mode) : Location :=
  if path.isEmpty || path = ":memory:" || mode.access = .memory || mode.driver = memoryDriver then .transient
  else .file path mode.access

/-- The location that an address names, read behind `file:`. -/
def ofAddress (address : Text) : Except Fault Location := do
  let (path, query) := splitPath ((← dropMachine address).takeWhile (· ≠ '#'))
  let mode ← (parameters query).foldlM Mode.add {}
  if mode.driver = memoryDriver ∨ mode.driver ∈ fileDrivers then return ofPath (partText path) mode
  else throw (.unknownDriver mode.driver)

/-- Is the name an address? -/
def isAddress (name : String) : Bool := name.startsWith "file:"

/-- The location that a name stands for. -/
def read (name : String) : Except Fault Location :=
  if name.contains '\x00' then .error (.zero (String.ofList (name.toList.takeWhile (· ≠ '\x00'))).utf8ByteSize)
  else if isAddress name then ofAddress (name.toList.drop 5)
  else .ok (ofPath name {})

/-- A name that is no address is the path of a file, made if there is none. -/
theorem read_of_path {name : String} (h1 : name.contains '\x00' = false) (h2 : isAddress name = false)
    (h3 : name.isEmpty = false) (h4 : name ≠ ":memory:") : read name = .ok (.file name .make) := by
  simp [read, ofPath, h1, h2, h3, h4, memoryDriver]

end Location

end SqlDialect
