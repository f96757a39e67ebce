import Mathlib.Data.List.Sort
import Mathlib.Data.String.Basic
import Travsr.Core.Text
import Travsr.Lib.OrdMap

open Travsr.Core.Text

namespace Travsr.Guard

def SESSION_TTL_SECS : Nat := 24 * 60 * 60

def MAX_SESSIONS : Nat := 64

def MAX_TERMS : Nat := 256

def MAX_FILE_BYTES : Nat := 512 * 1024

/-- One session's remembered terms, the most recent last. -/
structure SessionState where
  updated : Nat
  queried : List String
  denied : List String
deriving DecidableEq

instance : Inhabited SessionState := ⟨⟨0, [], []⟩⟩

structure Store where
  sessions : OrdMap String SessionState

instance : Inhabited Store := ⟨⟨OrdMap.empty⟩⟩

/-- The state file as the valve meets it: its size, and the store its text parses to. -/
structure StateFile where
  bytes : Nat
  store : Option Store

def normalise (term : String) : String := trim term

/-- No file, one past the size cap or one that does not parse reads as the default store. -/
def load (file : Option StateFile) : Store :=
  match file with
  | some m => if m.bytes ≤ MAX_FILE_BYTES then m.store.getD default else default
  | none => default

def escapedBytes (c : Char) : Nat :=
  if c = '"' ∨ c = '\\' then 2
  else if c.toNat = 8 ∨ c.toNat = 9 ∨ c.toNat = 10 ∨ c.toNat = 12 ∨ c.toNat = 13 then 2
  else if c.toNat < 32 then 6
  else c.utf8Size

def stringBytes (s : String) : Nat := 2 + (s.toList.map escapedBytes).foldr (· + ·) 0

/-- The elements of an array or object, its brackets and the commas between them. -/
def listBytes (sizes : List Nat) : Nat := 2 + sizes.foldr (· + ·) 0 + (sizes.length - 1)

def numberBytes (n : Nat) : Nat := (Nat.toDigits 10 n).length

/-- The length of `{"updated":…,"queried":[…],"denied":[…]}`. -/
def SessionState.bytes (s : SessionState) : Nat :=
  listBytes [10 + numberBytes s.updated, 10 + listBytes (s.queried.map stringBytes),
    9 + listBytes (s.denied.map stringBytes)]

/-- The length of `serde_json::to_string`: `{"sessions":{…}}`. -/
def Store.bytes (store : Store) : Nat :=
  listBytes [11 + listBytes (store.sessions.entries.map fun e => stringBytes e.1 + 1 + e.2.bytes)]

def fresh (now : Nat) (s : SessionState) : Bool := now - SESSION_TTL_SECS ≤ s.updated

def keepFrom (sessions : OrdMap String SessionState) : Nat :=
  let stamps := (sessions.values.map SessionState.updated).insertionSort (· ≤ ·)
  stamps.getD (stamps.length - MAX_SESSIONS) 0

def capSessions (sessions : OrdMap String SessionState) : OrdMap String SessionState :=
  if MAX_SESSIONS < sessions.size then
    sessions.retainUpTo MAX_SESSIONS fun e => keepFrom sessions ≤ e.2.updated
  else sessions

def lastTerms (ts : List String) : List String :=
  if MAX_TERMS < ts.length then ts.drop (ts.length - MAX_TERMS) else ts

/-- What `save` does to the store before it writes it. -/
def prune (now : Nat) (store : Store) : Store :=
  let live := store.sessions.retain fun e => fresh now e.2
  ⟨(capSessions live).mapValues fun s =>
    { s with queried := lastTerms s.queried, denied := lastTerms s.denied }⟩

/-- The file `save` leaves. -/
def save (now : Nat) (store : Store) : Option StateFile :=
  some ⟨(prune now store).bytes, some (prune now store)⟩

/-- `sessions.entry(session).or_default()`. -/
def Store.entry (store : Store) (session : String) : SessionState :=
  (store.sessions.get? session).getD default

def Store.put (store : Store) (session : String) (s : SessionState) : Store :=
  ⟨store.sessions.insert session s⟩

/-- The clock is read once for the entry's stamp and once more by `save`. -/
structure Clock where
  entry : Nat
  save : Nat
deriving DecidableEq

def recordQuery (clock : Clock) (file : Option StateFile) (session term : String) :
    Option StateFile :=
  let term := normalise term
  if session = "" ∨ term = "" then file
  else
    let store := load file
    let entry : SessionState := { store.entry session with updated := clock.entry }
    let entry :=
      if term ∈ entry.queried then entry else { entry with queried := entry.queried ++ [term] }
    save clock.save (store.put session entry)

def release (clock : Clock) (file : Option StateFile) (session : Option String) (term : String) :
    Bool × Option StateFile :=
  match session.filter fun s => s ≠ "" with
  | none => (true, file)
  | some session =>
    let term := normalise term
    if term = "" then (true, file)
    else
      let store := load file
      let entry : SessionState := { store.entry session with updated := clock.entry }
      if term ∈ entry.queried ∨ term ∈ entry.denied then
        (true, save clock.save (store.put session entry))
      else
        let entry := { entry with denied := entry.denied ++ [term] }
        (false, save clock.save (store.put session entry))

end Travsr.Guard
