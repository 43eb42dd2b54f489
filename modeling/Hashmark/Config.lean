import Hashmark.Dict
import Hashmark.Disk
import Hashmark.Json.Fields
import Hashmark.Json.Reader

/-!
# Configuration

The settings of an engine that works on files, and the JSON file in which they are written. Every
setting has a default. Paths in a file are relative to the directory of the file.
-/

namespace Hashmark

/-- Where artifacts are kept. -/
inductive CacheChoice where
  | none
  | memory (capacity : Nat)
  | directory (path : Path)
  /-- A Redis server, for which the engine has no backend. -/
  | redis (url : String) (lifetime : Option Nat) (keyPrefix : String)
  deriving DecidableEq, Repr

namespace CacheChoice

/-- The number of artifacts that are kept in memory if nothing else is said. -/
def defaultCapacity : Nat := 256

/-- What stands in front of the keys on a server if nothing else is said. -/
def defaultKeyPrefix : String := "ludou:"

/-- The choice in a configuration file. -/
def toJson : CacheChoice → Json
  | .none => .object [("backend", .string "none")]
  | .memory capacity =>
    .object [("backend", .string "memory"), ("max_entries", Json.ofInt capacity)]
  | .directory path => .object [("backend", .string "file"), ("dir", .string path.text)]
  | .redis url lifetime keyPrefix => .object
      [("backend", .string "redis"), ("url", .string url),
       ("ttl_secs", Json.optional (fun (n : Nat) => Json.ofInt n) lifetime),
       ("prefix", .string keyPrefix)]

/-- Reads a natural number of 64 bits. -/
def asWord? : Json → Option Nat :=
  Json.asNat? UInt64.size

/-- The fields of a choice besides its name, or nothing if there is no such choice. -/
def fieldsOf? : String → Option (List String)
  | "none" => some []
  | "memory" => some ["max_entries"]
  | "file" => some ["dir"]
  | "redis" => some ["url", "ttl_secs", "prefix"]
  | _ => Option.none

/-- Reads a field, or takes its default if it is missing. -/
def fieldOr (default : α) (read : Json → Option α) : Option Json → Option α
  | Option.none => some default
  | some j => read j

/-- The choice of a name with its fields. -/
def ofFields? (name : String) (fields : List (Option Json)) : Option CacheChoice :=
  match name, fields with
  | "none", _ => some .none
  | "memory", [capacity] => (fieldOr defaultCapacity asWord? capacity).map .memory
  | "file", [some path] => path.asString?.map fun text => .directory ⟨text⟩
  | "redis", [some url, lifetime, keyPrefix] => do
    let url ← url.asString?
    let lifetime ← fieldOr Option.none (Json.asOptional? asWord?) lifetime
    let keyPrefix ← fieldOr defaultKeyPrefix Json.asString? keyPrefix
    pure (.redis url lifetime keyPrefix)
  | _, _ => Option.none

/-- Reads a choice: an object with the name under `backend`, in which other members do not matter,
or an array of the name and the fields, which may stop early. -/
def ofJson? (room : Nat) (j : Json) : Option CacheChoice :=
  if !j.isReadable room then Option.none
  else
    match j with
    | .object members => do
      let name ← (← Json.memberOnce? members "backend").bind Json.asString?
      let names ← fieldsOf? name
      ofFields? name (← names.mapM (Json.memberOnce? members))
    | .array (name :: items) => do
      let name ← name.asString?
      let names ← fieldsOf? name
      if names.length < items.length then Option.none
      else
        ofFields? name
          (items.map some ++ List.replicate (names.length - items.length) Option.none)
    | _ => Option.none

end CacheChoice

/-- The settings of an engine. -/
structure Config where
  /-- The directories in which names are looked up, in order. -/
  roots : List Path
  /-- The directories of the names with a namespace. -/
  namespaces : Dict Path
  /-- The extensions that are tried for dotted names, in order. -/
  extensions : List String
  cache : CacheChoice
  optimizes : Bool
  alwaysCompiles : Bool
  /-- What sets the cache keys of this engine apart from those of others. -/
  discriminator : Option String
  deriving DecidableEq, Repr

/-- Why a configuration file cannot be used. -/
inductive ConfigError where
  | unreadable (path : Path)
  | invalid (path : Path)
  deriving DecidableEq, Repr

/-- The message for an error. -/
def ConfigError.message : ConfigError → String
  | .unreadable path => s!"Failed to read config file `{path.text}`"
  | .invalid path => s!"Invalid config file `{path.text}`"

namespace Config

/-- The settings if nothing is said. -/
def default : Config where
  roots := []
  namespaces := []
  extensions := ["ludou.html", "html"]
  cache := .memory CacheChoice.defaultCapacity
  optimizes := true
  alwaysCompiles := false
  discriminator := none

/-- The settings in a configuration file. -/
def toJson (c : Config) : Json :=
  Json.record
    [("roots", .array (c.roots.map fun p => .string p.text)),
     ("namespaces", .object (c.namespaces.map fun (name, p) => (name, .string p.text))),
     ("extensions", .array (c.extensions.map .string)),
     ("cache", c.cache.toJson), ("optimize", .bool c.optimizes),
     ("force_recompile", .bool c.alwaysCompiles),
     ("discriminator", Json.optional .string c.discriminator)]

/-- The names of the settings, in order. -/
def fieldNames : List String :=
  ["roots", "namespaces", "extensions", "cache", "optimize", "force_recompile", "discriminator"]

/-- Reads a path. -/
def asPath? (j : Json) : Option Path :=
  j.asString?.map Path.mk

/-- Reads a list. -/
def asList? (read : Json → Option α) (j : Json) : Option (List α) := do
  (← j.asItems?).mapM read

/-- Reads settings. -/
def ofJson? (j : Json) : Option Config := do
  match ← Json.asPartialRecord? fieldNames j with
  | [roots, namespaces, extensions, cache, optimizes, alwaysCompiles, discriminator] =>
    let field {α : Type} (value : α) (read : Json → Option α) : Option Json → Option α :=
      CacheChoice.fieldOr value read
    pure
      { roots := ← field default.roots (asList? asPath?) roots
        namespaces := ← field default.namespaces
          (fun j => (Json.asMembers? asPath? j).map Dict.ofPairs) namespaces
        extensions := ← field default.extensions (asList? Json.asString?) extensions
        cache := ← field default.cache (CacheChoice.ofJson? (Json.nestingLimit - 1)) cache
        optimizes := ← field default.optimizes Json.asBool? optimizes
        alwaysCompiles := ← field default.alwaysCompiles Json.asBool? alwaysCompiles
        discriminator := ← field default.discriminator (Json.asOptional? Json.asString?)
          discriminator }
  | _ => none

/-- The settings with all paths taken from a directory. -/
def relativeTo (base : Path) (c : Config) : Config :=
  { c with
    roots := c.roots.map base.join
    namespaces := c.namespaces.map fun (name, p) => (name, base.join p)
    cache := match c.cache with
      | .directory path => .directory (base.join path)
      | choice => choice }

/-- The settings in a file. -/
def load (disk : Disk) (path : Path) : Except ConfigError Config :=
  match disk.readText? path with
  | none => .error (.unreadable path)
  | some text =>
    match (Json.read? text).bind ofJson? with
    | none => .error (.invalid path)
    | some c =>
      match path.parent? with
      | some base => .ok (c.relativeTo base)
      | none => .ok c

end Config

end Hashmark
