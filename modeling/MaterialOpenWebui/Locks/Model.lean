import MaterialOpenWebui.Js.Number
import MaterialOpenWebui.Totp.Code
import Mathlib.Logic.Function.Basic

/-!
# `Locks.Model` — locks a user sets for themselves (`app/js/core/locks.js`)

The module keeps the locks in the application state, and in memory the set of locks opened for the session,
the failed attempts of each lock, and the uses of the ladder. `tryUnlock` and `create` are asynchronous: each
`await` hands control back, and any other call may run before the answer is graded or the lock stored.

`attempts` maps a lock to a record `{ count, until }` *object*: a call that finds one keeps a reference to it
and later writes into it, a call that finds none makes its own and stores it after a failure. The model
therefore has the records in a list of their own, and both the map and the calls refer to them by position.

A step is one uninterrupted piece of one call; the clock is read once in it. `crypto.subtle` is the parameters
`sha256` and `hmac`, `Number(·)` of a string is `number`. Times are exact, in milliseconds.

The status log (`state.log`) and the listing of locks are left out: nothing here reads them.
-/

namespace MaterialOpenWebui
namespace Locks
open Js

/-! ## Data -/

/-- What an answer is checked against: the hash of a password, or the secret of one-time codes. -/
inductive Credential where
  | password (hash : JsString)
  | totp (secret : JsString)
  deriving DecidableEq

/-- `openUntil`: nothing, the session, or a time. -/
inductive OpenUntil where
  | closed
  | session
  | time (t : Rat)
  deriving DecidableEq

structure Lock where
  label : JsString
  duration : JsString
  createdAt : Int
  openUntil : OpenUntil
  credential : Credential
  deriving DecidableEq

/-- The failed attempts on a lock, and the end of the wait after them (`{ count, until }`). -/
structure Record where
  count : Nat
  waitUntil : Int

structure Reply where
  ok : Bool
  reason : Option JsString
  waitSeconds : Option Int
  attempts : Option Nat

inductive Result where
  | reply (r : Reply)
  /-- `create` resolves with the lock, less its credential. -/
  | created (id label duration : JsString) (createdAt : Int) (openUntil : OpenUntil)
  | threw (message : JsString)

/-- What a call of `tryUnlock` awaits. -/
inductive Awaiting where
  | digest (hash : JsString)
  /-- The code at a time, with the offsets still to try after it. -/
  | code (secret : JsString) (atMs : Int) (later : List Int)

/-- A call of `tryUnlock` past its check of the wait: the lock and the record it read, and when. -/
structure Grading where
  id : JsString
  answer : JsString
  lock : Lock
  record : Option Nat
  checkedAt : Int
  awaiting : Awaiting

inductive Call where
  | grading (g : Grading)
  /-- `create` awaits the digest of the password. -/
  | hashing (id : JsString) (lock : Lock)
  | settled (r : Result)

/-- An answer that was graded, and whether a stored wait was still running when it was. -/
structure Graded where
  id : JsString
  ok : Bool
  early : Bool

structure State where
  locks : JsString → Option Lock
  openThisSession : JsString → Bool
  attempts : JsString → Option Nat
  records : List Record
  ladderUses : List Int
  calls : List Call
  /-- The answers graded so far, the latest first. -/
  graded : List Graded

/-- The count in a record; a record not stored yet is `{ count: 0, until: 0 }`. -/
def State.countOf (s : State) (record : Option Nat) : Nat :=
  ((record.bind (s.records[·]?)).map Record.count).getD 0

/-- The end of the wait in a record. -/
def State.waitOf (s : State) (record : Option Nat) : Int :=
  ((record.bind (s.records[·]?)).map Record.waitUntil).getD 0

/-- The failures stored for a lock. -/
def State.storedCount (s : State) (id : JsString) : Nat := s.countOf (s.attempts id)

/-- The end of the wait stored for a lock. -/
def State.storedWait (s : State) (id : JsString) : Int := s.waitOf (s.attempts id)

/-! ## Reading -/

def isLocked (s : State) (id : JsString) (now : Int) : Bool :=
  match s.locks id with
  | none => false
  | some lock =>
    match lock.openUntil with
    | .closed => true
    | .session => !s.openThisSession id
    | .time t => t = 0 || t < now

/-- `Math.ceil(ms / 1000)`. -/
def ceilSeconds (ms : Int) : Int := -(-ms / 1000)

def waitRemaining (s : State) (id : JsString) (now : Int) : Int :=
  match s.attempts id with
  | none => 0
  | some r => max 0 (ceilSeconds (s.waitOf (some r) - now))

def ladderCap : Nat := 3

/-- The uses of the last hour. -/
def ladderBudget (s : State) (now : Int) : List Int := s.ladderUses.dropWhile (· < now - 3600000)

def ladderRemaining (s : State) (now : Int) : Nat := ladderCap - (ladderBudget s now).length

/-! ## `create` -/

/-- The argument of `create`; what is missing is `undefined`. -/
structure Request where
  id : JsString
  label : Option JsString
  method : JsString
  password : Option JsString
  secret : Option JsString
  duration : Option JsString

section
variable (sha256 : ByteArray → Vector UInt8 32)

def sha256Hex (text : JsString) : JsString := (sha256 (utf8 text)).toList.flatMap hexByte

/-- The lock that `create` builds; its password is hashed behind an `await`. -/
def newLock (r : Request) (now : Int) : Except JsString Lock :=
  let label := match r.label with
    | some (c :: cs) => c :: cs
    | _ => r.id
  let lock := fun credential => Lock.mk label (r.duration.getD (js "surface")) now .closed credential
  if r.id = [] then .error (js "A lock needs a target.")
  else if r.method = js "password" then
    let password := r.password.getD []
    if password.length < 4 then .error (js "The password must be at least four characters.")
    else .ok (lock (.password (sha256Hex sha256 password)))
  else if r.method = js "totp" then
    let cleaned := stripSpaces (r.secret.getD [])
    if cleaned = [] then .error (js "A one-time-code lock needs a secret.")
    else if Totp.base32Decode cleaned = [] then .error (js "That secret is not valid Base32.")
    else .ok (lock (.totp cleaned))
  else .error (js "Unsupported method: " ++ r.method)

def State.call (s : State) (c : Call) : State := { s with calls := s.calls ++ [c] }

def State.settle (s : State) (i : Nat) (r : Result) : State := { s with calls := s.calls.set i (.settled r) }

def State.save (s : State) (id : JsString) (lock : Option Lock) : State :=
  { s with locks := Function.update s.locks id lock }

def Lock.listed (id : JsString) (lock : Lock) : Result :=
  .created id lock.label lock.duration lock.createdAt lock.openUntil

def create (s : State) (r : Request) (now : Int) : State :=
  match newLock sha256 r now with
  | .error message => s.call (.settled (.threw message))
  | .ok lock =>
    match lock.credential with
    | .password _ => s.call (.hashing r.id lock)
    -- nothing is awaited for a secret: the lock is stored at once
    | .totp _ => (s.save r.id (some lock)).call (.settled (lock.listed r.id))

/-! ## `tryUnlock` -/

/-- The first `await`. -/
def Lock.firstAwait (lock : Lock) (now : Int) : Awaiting :=
  match lock.credential with
  | .password hash => .digest hash
  | .totp secret => .code secret (now + -1 * 30000) [0, 1]

def waitingReply (secs : Int) : Reply where
  ok := false
  reason := some (js "Too many attempts. Try again in " ++ natText secs.toNat ++ js "s.")
  waitSeconds := some secs
  attempts := none

def tryUnlock (s : State) (id answer : JsString) (now : Int) : State :=
  match s.locks id with
  | none => s.call (.settled (.reply ⟨false, some (js "There is no lock on that."), none, none⟩))
  | some lock =>
    -- read once: the call does not look at the map again before it writes
    let record := s.attempts id
    if now < s.waitOf record then
      s.call (.settled (.reply (waitingReply (ceilSeconds (s.waitOf record - now)))))
    else s.call (.grading ⟨id, answer, lock, record, now, lock.firstAwait now⟩)

/-- What an `await` of a call comes to. -/
inductive Outcome where
  | pending (awaiting : Awaiting)
  | threw (message : JsString)
  | graded (ok : Bool)

variable (hmac : Totp.Algorithm → List UInt8 → List UInt8 → List UInt8)

def outcome (g : Grading) (now : Int) : Outcome :=
  match g.awaiting with
  | .digest hash => .graded (sha256Hex sha256 g.answer == hash)
  | .code secret atMs later =>
    match Totp.totp hmac secret atMs with
    | .error message => .threw message
    | .ok code =>
      if code = stripSpaces g.answer then .graded true
      else
        match later with
        | [] => .graded false
        -- the clock is read again for each of the three codes
        | offset :: later => .pending (.code secret (now + offset * 30000) later)

/-- The end of the wait after a failure: exponential and capped, from the third on. -/
def nextWait (count : Nat) (old now : Int) : Int :=
  if 3 ≤ count then now + (min (2 ^ (count - 2)) 60 : Nat) * 1000 else old

def wrongReply (record : Record) (now : Int) : Reply where
  ok := false
  reason := some (js "That did not match. " ++
    if now < record.waitUntil then
      js "Waiting " ++ natText (ceilSeconds (record.waitUntil - now)).toNat ++ js "s before the next try."
    else js "Nothing was changed or deleted.")
  waitSeconds := none
  attempts := some record.count

/-- Writes one more failure into the record the call has, and stores that record. -/
def State.storeFailure (s : State) (id : JsString) (record : Option Nat) (written : Record) : State :=
  match record with
  | some r => { s with records := s.records.set r written, attempts := Function.update s.attempts id (some r) }
  | none =>
    { s with
      records := s.records ++ [written]
      attempts := Function.update s.attempts id (some s.records.length) }

/-- Notes that an answer has been graded. -/
def State.grade (s : State) (id : JsString) (ok : Bool) (now : Int) : State :=
  { s with graded := ⟨id, ok, now < s.storedWait id⟩ :: s.graded }

/-- The record with one more failure: `record.count += 1`, and from the third on a wait. -/
def State.failure (s : State) (record : Option Nat) (now : Int) : Record where
  count := s.countOf record + 1
  waitUntil := nextWait (s.countOf record + 1) (s.waitOf record) now

def fail (s : State) (i : Nat) (g : Grading) (now : Int) : State :=
  let written := s.failure g.record now
  ((s.grade g.id false now).storeFailure g.id g.record written).settle i (.reply (wrongReply written now))

variable (number : JsString → JsNumber)

/-- How long a right answer opens a lock. -/
def openFor (duration : JsString) (now : Int) : OpenUntil :=
  if duration = js "session" then .session
  else
    match number duration with
    | .finite minutes => .time (now + minutes.toRat * 60000)
    | _ => .time now

def succeed (s : State) (i : Nat) (g : Grading) (now : Int) : State :=
  let s := s.grade g.id true now
  -- calls in flight keep their references to the record that is taken out here
  let s := { s with attempts := Function.update s.attempts g.id none }
  let s :=
    if g.lock.duration = js "session" then
      { s with openThisSession := Function.update s.openThisSession g.id true }
    else s
  (s.save g.id (some { g.lock with openUntil := openFor number g.lock.duration now })).settle i
    (.reply ⟨true, none, none, none⟩)

/-- What call `i` awaits has settled. -/
def resume (s : State) (i : Nat) (now : Int) : State :=
  match s.calls[i]? with
  | some (.grading g) =>
    match outcome sha256 hmac g now with
    | .pending awaiting => { s with calls := s.calls.set i (.grading { g with awaiting }) }
    | .threw message => s.settle i (.threw message)
    | .graded true => succeed number s i g now
    | .graded false => fail s i g now
  | some (.hashing id lock) => (s.save id (some lock)).settle i (lock.listed id)
  | _ => s

end

/-! ## Operations that do not wait -/

def relock (s : State) (id : JsString) : State :=
  match s.locks id with
  | none => s
  | some lock =>
    { s with openThisSession := Function.update s.openThisSession id false }.save id
      (some { lock with openUntil := .closed })

def remove (s : State) (id : JsString) : State :=
  { s with openThisSession := Function.update s.openThisSession id false }.save id none

/-- Spends one use of the ladder, if the last hour has one left. -/
def spendLadder (s : State) (now : Int) : State × Bool :=
  let uses := ladderBudget s now
  if ladderRemaining s now = 0 then ({ s with ladderUses := uses }, false)
  else ({ s with ladderUses := uses ++ [now] }, true)

/-- Clears the waiting on a lock, and nothing else. -/
def clearWait (s : State) (id : JsString) : State × Bool :=
  match s.attempts id with
  | none => (s, false)
  | some r => ({ s with records := s.records.modify r fun record => { record with waitUntil := 0 } }, true)

/-! ## Steps -/

inductive Step where
  | tryUnlock (id answer : JsString) (now : Int)
  | create (r : Request) (now : Int)
  | resume (i : Nat) (now : Int)
  | relock (id : JsString)
  | remove (id : JsString)
  | spendLadder (now : Int)
  | clearWait (id : JsString)

def step (sha256 : ByteArray → Vector UInt8 32)
    (hmac : Totp.Algorithm → List UInt8 → List UInt8 → List UInt8) (number : JsString → JsNumber) (s : State) :
    Step → State
  | .tryUnlock id answer now => tryUnlock s id answer now
  | .create r now => create sha256 s r now
  | .resume i now => resume sha256 hmac number s i now
  | .relock id => relock s id
  | .remove id => remove s id
  | .spendLadder now => (spendLadder s now).1
  | .clearWait id => (clearWait s id).1

/-- The module as it is loaded, with the locks the application state holds. -/
def start (stored : JsString → Option Lock) : State where
  locks := stored
  openThisSession := fun _ => false
  attempts := fun _ => none
  records := []
  ladderUses := []
  calls := []
  graded := []

end Locks
end MaterialOpenWebui
