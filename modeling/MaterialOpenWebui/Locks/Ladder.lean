import MaterialOpenWebui.Lib.Window
import MaterialOpenWebui.Locks.Attempts

/-!
# `Locks.Ladder` — playing one's way out of a wait (`app/js/locks-ui.js`)

A ladder is a dialog of three rungs: a question about dim sum (five wrong ones move on), ten sums in a row,
and six moles within a round. Who wins on any rung has the wait of one lock cleared. The budget of three
clearances an hour is looked at when a ladder opens (`ladder`) and spent when it is won (`finishWon`), which
does not look at whether there was anything left to spend.

A question can be answered once: the source gives it a random nonce, here the number of the question. A timer
of the third rung that fires after the dialog was closed only closes it again.
-/

namespace MaterialOpenWebui
namespace Locks
open Js Run Window

/-! ## Ladders -/

inductive Rung where
  | dish (wrongDishes : Nat)
  | sums (index : Nat)
  | mole (hits : Nat) (live : Option Nat) (startedAt : Int)
  deriving DecidableEq

structure Ladder where
  targetId : JsString
  rung : Rung
  /-- The number of the question that is asked. -/
  nonce : Nat
  /-- The dialog has not been closed. -/
  shown : Bool
  deriving DecidableEq

/-- School mode has no question about dishes. -/
def startingRung (school : Bool) : Rung := if school then .sums 0 else .dish 0

/-- What the player does, or a timer. -/
inductive Move where
  | answerDish (nonce : Nat) (correct : Bool)
  | answerSum (nonce : Nat) (correct : Bool)
  | moleMoves (cell : Nat)
  | hit (cell : Nat)
  | roundEnds
  /-- "Serve the wait instead", Escape, or a click beside the dialog. -/
  | close

def roundMs : Int := 8000

/-- The ladder after a move, and whether the move has won it. -/
def Ladder.play (l : Ladder) (m : Move) (now : Int) : Ladder × Bool :=
  if !l.shown then (l, false)
  else
    match m, l.rung with
    | .answerDish nonce correct, .dish wrongDishes =>
      -- single use: a stale question grades nothing
      if nonce ≠ l.nonce then (l, false)
      else if correct then ({ l with nonce := l.nonce + 1, shown := false }, true)
      else if 5 ≤ wrongDishes + 1 then ({ l with nonce := l.nonce + 1, rung := .sums 0 }, false)
      else ({ l with nonce := l.nonce + 1, rung := .dish (wrongDishes + 1) }, false)
    | .answerSum nonce correct, .sums index =>
      if nonce ≠ l.nonce then (l, false)
      else if !correct then ({ l with nonce := l.nonce + 1, rung := .mole 0 none now }, false)
      else if 10 ≤ index + 1 then ({ l with nonce := l.nonce + 1, shown := false }, true)
      else ({ l with nonce := l.nonce + 1, rung := .sums (index + 1) }, false)
    | .moleMoves cell, .mole hits _ startedAt => ({ l with rung := .mole hits (some cell) startedAt }, false)
    | .hit cell, .mole hits live startedAt =>
      if live ≠ some cell then (l, false)
      else if hits + 1 < 6 then ({ l with rung := .mole (hits + 1) none startedAt }, false)
      -- a round cannot be won in less than half its time
      else ({ l with shown := false }, !decide (now - startedAt < roundMs / 2))
    | .roundEnds, .mole _ _ _ => ({ l with shown := false }, false)
    | .close, _ => ({ l with shown := false }, false)
    | _, _ => (l, false)

/-! ## The table -/

/-- The module of locks, the ladders opened so far, the times of the waits cleared, and the latest time the
    budget was looked at. -/
structure Table where
  core : State
  ladders : List Ladder
  clearances : List Int
  clock : Int

/-- Looking at the budget forgets the uses that are over. -/
def Table.look (t : Table) (now : Int) : Table :=
  { t with core := { t.core with ladderUses := ladderBudget t.core now }, clock := now }

def ladder (t : Table) (targetId : JsString) (school : Bool) (now : Int) : Table :=
  let looked := t.look now
  if ladderRemaining t.core now = 0 then looked
  else { looked with ladders := t.ladders ++ [⟨targetId, startingRung school, 0, true⟩] }

/-- Spends a use of the budget, if there is one, and clears the wait. -/
def finishWon (t : Table) (targetId : JsString) (now : Int) : Table :=
  let cleared := clearWait (spendLadder t.core now).1 targetId
  { t with
    core := cleared.1
    clearances := if cleared.2 then t.clearances ++ [now] else t.clearances
    clock := now }

inductive Event where
  | ladder (targetId : JsString) (school : Bool) (now : Int)
  | move (k : Nat) (m : Move) (now : Int)
  /-- The unlock prompt looks at the budget every second. -/
  | refreshWait (now : Int)
  /-- Any other use of the locks; these two are called from nowhere but `finishWon`. -/
  | other (a : Step) (ha : ∀ id now, a ≠ .clearWait id ∧ a ≠ .spendLadder now)

section
variable (sha256 : ByteArray → Vector UInt8 32)
  (hmac : Totp.Algorithm → List UInt8 → List UInt8 → List UInt8) (number : JsString → JsNumber)

def turn (t : Table) : Event → Table
  | .ladder targetId school now => ladder t targetId school now
  | .move k m now =>
    match t.ladders[k]? with
    | none => t
    | some l =>
      let moved := l.play m now
      let t := { t with ladders := t.ladders.set k moved.1 }
      if moved.2 then finishWon t l.targetId now else t
  | .refreshWait now => t.look now
  | .other a _ => { t with core := step sha256 hmac number t.core a }

/-- No ladder has been opened. -/
def Table.start (stored : JsString → Option Lock) : Table where
  core := Locks.start stored
  ladders := []
  clearances := []
  clock := 0

/-! ## The law -/

/-- The lock whose ladder a move has won. -/
def Table.won (t : Table) (k : Nat) (m : Move) (now : Int) : Option JsString :=
  match t.ladders[k]? with
  | none => none
  | some l => if (l.play m now).2 then some l.targetId else none

/-- At most three waits are cleared within any hour; and playing a ladder never touches a lock or the number
    of its failures. -/
structure Spared (t : Table) : Prop where
  capped : Capped ladderCap 3600000 t.clearances
  harmless : ∀ k m now id, (turn sha256 hmac number t (.move k m now)).core.locks id = t.core.locks id ∧
    (turn sha256 hmac number t (.move k m now)).core.storedCount id = t.core.storedCount id

/-- The budget is looked at with a clock that is not set back, and when a ladder is won and there is a wait
    to clear, there is still a use to spend. -/
def Spends (t : Table) : Event → Prop
  | .ladder _ _ now => t.clock ≤ now
  | .move k m now => ∀ id, t.won k m now = some id →
      t.clock ≤ now ∧ (t.core.attempts id ≠ none → ladderRemaining t.core now ≠ 0)
  | .refreshWait now => t.clock ≤ now
  | .other _ _ => True

/-! ## Steps -/

theorem clearWait_locks (s : State) (id : JsString) : (clearWait s id).1.locks = s.locks := by
  unfold clearWait
  split <;> rfl

theorem clearWait_storedCount (s : State) (id id' : JsString) :
    (clearWait s id).1.storedCount id' = s.storedCount id' := by
  rw [State.storedCount, State.storedCount, clearWait_attempts]
  cases s.attempts id' with
  | none => rfl
  | some r => exact countOf_clearWait s id r

theorem clearWait_ladderUses (s : State) (id : JsString) : (clearWait s id).1.ladderUses = s.ladderUses := by
  unfold clearWait
  split <;> rfl

/-- A wait is cleared if there were failed attempts. -/
theorem clearWait_cleared (s : State) (id : JsString) : (clearWait s id).2 = (s.attempts id).isSome := by
  unfold clearWait
  split <;> rename_i h <;> rw [h] <;> rfl

theorem spendLadder_locks (s : State) (now : Int) : (spendLadder s now).1.locks = s.locks := by
  unfold spendLadder
  simp only
  split <;> rfl

theorem spendLadder_attempts (s : State) (now : Int) : (spendLadder s now).1.attempts = s.attempts := by
  unfold spendLadder
  simp only
  split <;> rfl

theorem spendLadder_storedCount (s : State) (now : Int) (id : JsString) :
    (spendLadder s now).1.storedCount id = s.storedCount id := by
  unfold spendLadder
  simp only
  split <;> rfl

theorem spendLadder_ladderUses (s : State) (now : Int) : (spendLadder s now).1.ladderUses =
    if ladderRemaining s now = 0 then ladderBudget s now else ladderBudget s now ++ [now] := by
  unfold spendLadder
  simp only
  split <;> rfl

theorem finishWon_ladderUses (t : Table) (targetId : JsString) (now : Int) :
    (finishWon t targetId now).core.ladderUses =
      if ladderRemaining t.core now = 0 then ladderBudget t.core now else ladderBudget t.core now ++ [now] := by
  rw [← spendLadder_ladderUses]
  exact clearWait_ladderUses _ _

/-- **A move of a ladder changes no lock and no count**, won or not, whatever is left of the budget. -/
theorem harmless_move (t : Table) (k : Nat) (m : Move) (now : Int) (id : JsString) :
    (turn sha256 hmac number t (.move k m now)).core.locks id = t.core.locks id ∧
    (turn sha256 hmac number t (.move k m now)).core.storedCount id = t.core.storedCount id := by
  simp only [turn]
  split
  · exact ⟨rfl, rfl⟩
  · split
    · simp only [finishWon]
      rw [clearWait_locks, spendLadder_locks, clearWait_storedCount, spendLadder_storedCount]
      exact ⟨rfl, rfl⟩
    · exact ⟨rfl, rfl⟩

theorem ladderUses_step {s : State} {a : Step} (ha : ∀ id now, a ≠ .clearWait id ∧ a ≠ .spendLadder now) :
    (step sha256 hmac number s a).ladderUses = s.ladderUses := by
  cases a with
  | tryUnlock id answer now =>
    simp only [step, tryUnlock]
    split
    · rfl
    · split <;> rfl
  | create r now =>
    simp only [step, create]
    split
    · rfl
    · split <;> rfl
  | resume i now =>
    simp only [step, resume]
    split
    · split
      · rfl
      · rfl
      · simp only [succeed]
        split <;> rfl
      · rename_i g _ _ _
        simp only [fail]
        cases g.record <;> rfl
    · rfl
    · rfl
  | relock id =>
    simp only [step, relock]
    split <;> rfl
  | remove id => rfl
  | spendLadder now => exact absurd rfl (ha [] now).2
  | clearWait id => exact absurd rfl (ha id 0).1

/-! ## Runs -/

/-- What every run within the budget keeps: the clearances of the last hour are among the uses. -/
structure Table.Budgeted (t : Table) : Prop where
  capped : Capped ladderCap 3600000 t.clearances
  counted : (since 3600000 t.clock t.clearances).Sublist t.core.ladderUses

theorem budgeted_look {t : Table} (h : t.Budgeted) {now : Int} (hclock : t.clock ≤ now) :
    (t.look now).Budgeted :=
  ⟨h.capped, since_sublist_of_forget hclock h.counted⟩

theorem budgeted_ladder {t : Table} (h : t.Budgeted) {targetId : JsString} {school : Bool} {now : Int}
    (hclock : t.clock ≤ now) : (ladder t targetId school now).Budgeted := by
  have hlooked := budgeted_look h hclock
  simp only [ladder]
  split
  · exact hlooked
  · exact ⟨hlooked.capped, hlooked.counted⟩

theorem budgeted_finishWon {t : Table} (h : t.Budgeted) {targetId : JsString} {now : Int}
    (hclock : t.clock ≤ now) (hroom : t.core.attempts targetId ≠ none → ladderRemaining t.core now ≠ 0) :
    (finishWon t targetId now).Budgeted := by
  have hkept : (since 3600000 now t.clearances).Sublist (ladderBudget t.core now) :=
    since_sublist_of_forget hclock h.counted
  have huses := finishWon_ladderUses t targetId now
  have hcleared : (clearWait (spendLadder t.core now).1 targetId).2 = (t.core.attempts targetId).isSome := by
    rw [clearWait_cleared, spendLadder_attempts]
  cases hattempts : t.core.attempts targetId with
  | none =>
    have htimes : (finishWon t targetId now).clearances = t.clearances := by
      simp only [finishWon, hcleared, hattempts]
      rfl
    refine ⟨htimes ▸ h.capped, ?_⟩
    rw [htimes, huses]
    split
    · exact hkept
    · exact hkept.trans (List.sublist_append_left _ _)
  | some r =>
    have hleft : ladderRemaining t.core now ≠ 0 := hroom (by rw [hattempts]; exact Option.some_ne_none r)
    have htimes : (finishWon t targetId now).clearances = t.clearances ++ [now] := by
      simp only [finishWon, hcleared, hattempts]
      rfl
    have hlt : (ladderBudget t.core now).length < ladderCap := by
      unfold ladderRemaining at hleft
      omega
    refine ⟨htimes ▸ h.capped.use hkept hlt, ?_⟩
    rw [htimes, huses, if_neg hleft]
    show (since 3600000 now (t.clearances ++ [now])).Sublist _
    rw [since_append]
    exact hkept.append (List.filter_sublist)

/-- **Step lemma.** -/
theorem budgeted_turn {t : Table} {e : Event} (h : t.Budgeted) (hspends : Spends t e) :
    (turn sha256 hmac number t e).Budgeted := by
  cases e with
  | ladder targetId school now => exact budgeted_ladder h hspends
  | move k m now =>
    simp only [turn]
    split
    · exact h
    · rename_i l hl
      have hmoved : ∀ ladders, ({ t with ladders := ladders } : Table).Budgeted :=
        fun _ => ⟨h.capped, h.counted⟩
      split
      · rename_i hwon
        have hspent := hspends l.targetId (by simp only [Table.won, hl, hwon, if_true])
        exact budgeted_finishWon (hmoved _) hspent.1 hspent.2
      · exact hmoved _
  | refreshWait now => exact budgeted_look h hspends
  | other a ha =>
    refine ⟨h.capped, ?_⟩
    show (since 3600000 t.clock t.clearances).Sublist (step sha256 hmac number t.core a).ladderUses
    rw [ladderUses_step sha256 hmac number ha]
    exact h.counted

/-- **The cap holds in every run whose wins are paid for**, however the ladders overlap; and no clearance
    touches a lock or its count. -/
theorem spared_of_spending {stored : JsString → Option Lock} {es : List Event}
    (h : AllSteps Spends (turn sha256 hmac number) (.start stored) es) :
    Spared sha256 hmac number (run (turn sha256 hmac number) (.start stored) es) where
  capped := (invariant (fun _ _ hI hspends => budgeted_turn sha256 hmac number hI hspends)
    ⟨capped_nil _ _, List.Sublist.refl _⟩ h : Table.Budgeted _).capped
  harmless := harmless_move sha256 hmac number _

end

/-! ## Four ladders at once -/

/-- A wrong answer, the `i`-th call. -/
def wrong (i : Nat) (now : Int) : List Event :=
  [.other (.tryUnlock (js "tab") (js "open") now) (fun _ _ => ⟨nofun, nofun⟩),
    .other (.resume i (now + 10)) (fun _ _ => ⟨nofun, nofun⟩)]

/-- Four ladders are opened while the budget is whole, and each is won after a wrong answer has set a wait. -/
def fourAtOnce : List Event :=
  [.ladder (js "tab") false 1772820000000, .ladder (js "tab") false 1772820000010,
    .ladder (js "tab") false 1772820000020, .ladder (js "tab") false 1772820000030] ++
  wrong 0 1772820001000 ++ wrong 1 1772820002000 ++ wrong 2 1772820003000 ++
  [.move 0 (.answerDish 0 true) 1772820004000] ++ wrong 3 1772820005000 ++
  [.move 1 (.answerDish 0 true) 1772820006000] ++ wrong 4 1772820007000 ++
  [.move 2 (.answerDish 0 true) 1772820008000] ++ wrong 5 1772820009000 ++
  [.move 3 (.answerDish 0 true) 1772820010000]

def tabTurn : Table → Event → Table := turn answerDigest (fun _ _ _ => []) (fun _ => .nan)

/-- The fourth win within ten seconds clears a wait as well. -/
theorem fourth_clearance : (run tabTurn (.start tabLocked) fourAtOnce).clearances =
      [1772820004000, 1772820006000, 1772820008000, 1772820010000] ∧
    ¬ Spared answerDigest (fun _ _ _ => []) (fun _ => .nan) (run tabTurn (.start tabLocked) fourAtOnce) := by
  have htimes : (run tabTurn (.start tabLocked) fourAtOnce).clearances =
      [1772820004000, 1772820006000, 1772820008000, 1772820010000] := by decide
  refine ⟨htimes, ?_⟩
  intro h
  have hcapped := h.capped 1772820010000
  rw [htimes] at hcapped
  exact absurd hcapped (by decide)

/-- A wrong answer, and one ladder after the other: the first is won before the second opens. -/
def oneAfterTheOther : List Event := wrong 0 1772820000000 ++
  [.ladder (js "tab") false 1772820001000, .move 0 (.answerDish 0 true) 1772820002000,
    .refreshWait 1772820003000, .ladder (js "tab") true 1772820004000, .move 1 (.answerSum 0 false) 1772820005000]

theorem spared_oneAfterTheOther :
    Spared answerDigest (fun _ _ _ => []) (fun _ => .nan) (run tabTurn (.start tabLocked) oneAfterTheOther) :=
  spared_of_spending answerDigest (fun _ _ _ => []) (fun _ => .nan) (by
    refine ⟨trivial, trivial, ?_, ?_, ?_, ?_, ?_, trivial⟩
    · show (0 : Int) ≤ 1772820001000
      decide
    · intro id _
      exact ⟨by decide, fun _ => by decide⟩
    · show (1772820002000 : Int) ≤ 1772820003000
      decide
    · show (1772820003000 : Int) ≤ 1772820004000
      decide
    · intro id hwon
      cases hwon)

end Locks
end MaterialOpenWebui
