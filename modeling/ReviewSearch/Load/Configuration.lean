/-
ReviewSearch.Load.Configuration — limits and schemas from files.

Limits that are left out have their defaults; the version and the fields
of a schema must be there. What is read is checked, and logged once it
has passed.
-/
import ReviewSearch.Fault
import ReviewSearch.Index.Limits
import ReviewSearch.Index.Schema
import ReviewSearch.Json.Record
import ReviewSearch.Load.Contents
import ReviewSearch.Log.Basic

namespace ReviewSearch

namespace Limits

def ofRaw? (v : Json.Raw) : Option Limits := do
  let fields ← v.record? ["max_terms", "max_limit", "default_limit", "max_pages"]
  let count (name : String) (default : Nat) :=
    fields.optional name (Json.Raw.natUpTo? Count.max) default
  let defaults : Limits := {}
  return {
    maxTerms := ← count "max_terms" defaults.maxTerms
    maxLimit := ← count "max_limit" defaults.maxLimit
    defaultLimit := ← count "default_limit" defaults.defaultLimit
    maxPages := ← count "max_pages" defaults.maxPages }

/-- Refuses limits with a defect. -/
def checked (l : Limits) : Except String Limits :=
  match l.defect? with
  | some reason => .error reason
  | none => .ok l

/-- Loads limits from the file at a path. -/
def load (path : String) (file : Contents) (log : Log) : Except Fault Limits × Log :=
  match (file.read "config" ofRaw?).bind checked with
  | .error reason => (.error (.config reason), log)
  | .ok l => (.ok l, log.event .configLoaded [("path", path)])

end Limits

namespace Schema

def ofRaw? (v : Json.Raw) : Option Schema := do
  let fields ← v.record? ["version", "fields"]
  let version ← fields.required "version" (Json.Raw.natUpTo? maxVersion)
  return ofFields version (← fields.required "fields" Json.Raw.texts?)

/-- Refuses a schema with a defect. -/
def checked (s : Schema) : Except String Schema :=
  match s.defect? with
  | some reason => .error reason
  | none => .ok s

/-- Loads a schema from a file. -/
def load (file : Contents) (log : Log) : Except Fault Schema × Log :=
  match (file.read "schema" ofRaw?).bind checked with
  | .error reason => (.error (.config reason), log)
  | .ok s =>
    (.ok s, log.event .schemaLoaded
      [("version", toString s.version), ("fields", toString s.fields.length)])

end Schema

end ReviewSearch
