import Mathlib.Data.Rat.Floor
import Mathlib.Tactic.Linarith
import MaterialOpenWebui.Js.Text

/-!
# `Hardware.Fit` — will this model run on this machine (`electron/hardware.ts`)

`fit` weighs a model's size and context window against what was measured of the machine. A fact that is missing makes the answer
`Unknown` where it is needed, and no number stands in for it. The arithmetic is exact.

`String(n)` and `n.toLocaleString()` of a number are the parameters `numberText` and `localeText`: no verdict depends on them.
-/

namespace MaterialOpenWebui
namespace Hardware
open Js

/-! ## Facts -/

/-- Something measured, or why it was not. -/
inductive Fact (α : Type) where
  | known (value : α)
  | unknown (why : JsString)

def Fact.value? {α : Type} : Fact α → Option α
  | .known value => some value
  | .unknown _ => none

@[simp] theorem Fact.value?_known {α : Type} (value : α) : (Fact.known value).value? = some value := rfl

@[simp] theorem Fact.value?_unknown {α : Type} (why : JsString) : (Fact.unknown why : Fact α).value? = none := rfl

/-- What of a probe the verdict depends on. -/
structure HardwareProbe where
  probedAt : JsString
  totalRamBytes : Fact Rat
  vramBytes : Fact Rat
  freeDiskBytes : Fact Rat

/-- A number that a catalogue declares. -/
inductive Quantity where
  | finite (q : Rat)
  | infinity (neg : Bool)
  | nan

/-- It counts as declared: neither `0` nor `NaN`. -/
def Quantity.truthy : Quantity → Bool
  | .finite q => q ≠ 0
  | .infinity _ => true
  | .nan => false

structure Model where
  blobBytes : Option Quantity
  parameterCount : Option Quantity
  quantisation : Option JsString
  contextTokens : Option Quantity

inductive Verdict where
  | unlikely
  | unknown
  | runsWithLimits
  | runsWell
deriving DecidableEq

structure FitResult where
  verdict : Verdict
  evidence : List JsString
  assumptions : List JsString
  probedAt : JsString

/-! ## The verdict -/

section
variable (numberText : Quantity → JsString) (localeText : Rat → JsString)

/-- `n.toFixed(1)`: of two nearest, the greater; from `10 ^ 21` on there is no point to set. -/
def toFixed1 (n : Rat) : JsString :=
  let magnitude := if n < 0 then -n else n
  let tenths := (magnitude * 10 + 1 / 2).floor.toNat
  if magnitude < 10 ^ 21 then
    (if n < 0 then js "-" else []) ++ natText (tenths / 10) ++ js "." ++ natText (tenths % 10)
  else numberText (.finite n)

def gb (n : Rat) : JsString := toFixed1 numberText (n / 1024 ^ 3) ++ js " GB"

/-- A number that is declared, finite and above zero. -/
def positive : Option Quantity → Option Rat
  | some (.finite q) => if q ≤ 0 then none else some q
  | _ => none

def baselineContext : Rat := 4096
def floorBytes : Rat := 6 / 10 * 1024 ^ 3

/-- What is allowed for the cache and the runtime: no context window declared counts as twice the baseline. -/
def overheadOf (weights : Rat) : Option Rat → Rat
  | some context => max floorBytes (weights * (15 / 100) * max 1 (context / baselineContext))
  | none => max floorBytes (weights * (3 / 10))

/-- What is said of the declared parameters and quantisation: evidence, and assumptions. -/
def metadataNotes (model : Model) : List JsString × List JsString :=
  let parameters := match model.parameterCount with
    | some n =>
      if n.truthy then ([js "Parameters: " ++ numberText n ++ js " (declared)."], [])
      else ([], [js "The parameter count was not declared, so nothing is inferred from it."])
    | none => ([], [js "The parameter count was not declared, so nothing is inferred from it."])
  let quantisation := match model.quantisation with
    | some (u :: s) => ([js "Quantisation: " ++ u :: s ++ js "."], [])
    | _ => ([], [js "The quantisation was not declared. It is not guessed at from the file size."])
  (parameters.1 ++ quantisation.1, parameters.2 ++ quantisation.2)

def contextNotes (weights : Rat) : Option Rat → List JsString × List JsString
  | some context =>
    ([js "Declared context window: " ++ localeText context ++ js " tokens."],
     [js "Allows " ++ gb numberText (overheadOf weights (some context)) ++
        js " for the KV cache and runtime overhead, scaled from the declared " ++ localeText context ++
        js "-token window against a " ++ localeText baselineContext ++
        js "-token baseline. This is a rule of thumb, not a measurement."])
  | none =>
    ([], [js "The context window was not declared. Rather than assume a small one, this allows " ++
      gb numberText (overheadOf weights none) ++
      js " — twice the baseline — so an undeclared long context cannot turn an over-optimistic verdict into a surprise."])

/-- What is left when the model does not go on the GPU. -/
def onCpu (hw : HardwareProbe) (needed : Rat) (evidence assumptions : List JsString) : FitResult :=
  match hw.totalRamBytes with
  | .unknown _ => ⟨.unknown, evidence, assumptions, hw.probedAt⟩
  | .known ram =>
    let evidence := evidence ++ [js "System memory: " ++ gb numberText ram ++ js "."]
    if needed ≤ ram * (5 / 10) then
      ⟨.runsWithLimits, evidence ++
        [js "Comfortably within system memory, but CPU inference is much slower than GPU."], assumptions,
        hw.probedAt⟩
    else if needed ≤ ram * (8 / 10) then
      ⟨.unlikely, evidence ++ [js "Would use most of system memory, leaving little for anything else running."], assumptions,
        hw.probedAt⟩
    else ⟨.unlikely, evidence ++ [js "Needs more memory than this machine has."], assumptions, hw.probedAt⟩

/-- Combines measured hardware with a model's real metadata. -/
def fit (hw : HardwareProbe) (model : Model) : FitResult :=
  match positive model.blobBytes with
  | none =>
    ⟨.unknown, [js "The catalogue did not report a size for this model."],
      [js "A size is never inferred from a model name or parameter count, so no verdict is offered."], hw.probedAt⟩
  | some weights =>
    let context := positive model.contextTokens
    let evidence := (js "Model weights: " ++ gb numberText weights ++ js " (from the catalogue, not estimated).") ::
      (metadataNotes numberText model).1 ++ (contextNotes numberText localeText weights context).1
    let assumptions := (metadataNotes numberText model).2 ++ (contextNotes numberText localeText weights context).2
    let needed := weights + overheadOf weights context
    if hw.vramBytes.value? = none ∧ hw.totalRamBytes.value? = none then
      ⟨.unknown, evidence ++ [js "Neither GPU memory nor system memory could be measured."], assumptions, hw.probedAt⟩
    else match hw.freeDiskBytes.value?.filter (· < weights) with
      | some free =>
        ⟨.unlikely, evidence ++ [js "Free space on the model destination is " ++ gb numberText free ++
          js ", which is less than the download itself."], assumptions, hw.probedAt⟩
      | none =>
        match hw.vramBytes with
        | .known vram =>
          let evidence := evidence ++ [js "Usable GPU memory: " ++ gb numberText vram ++ js "."]
          if needed ≤ vram * (85 / 100) then
            ⟨.runsWell, evidence ++ [js "Fits in GPU memory with headroom."], assumptions, hw.probedAt⟩
          else if needed ≤ vram then
            ⟨.runsWithLimits, evidence ++
              [js "Fits in GPU memory, but with little headroom for a long context."], assumptions,
              hw.probedAt⟩
          else onCpu numberText hw needed
            (evidence ++ [js "Does not fit in GPU memory, so it would run partly or wholly on the CPU."]) assumptions
        | .unknown why => onCpu numberText hw needed (evidence ++ [js "GPU memory is unknown: " ++ why]) assumptions

/-! ## The ladder -/

/-- The verdict on a sized model, by what it needs and what is known of the machine. -/
def verdictOf (weights needed : Rat) (vram ram disk : Option Rat) : Verdict :=
  if vram = none ∧ ram = none then .unknown
  else if disk.any (· < weights) then .unlikely
  else if vram.any (needed ≤ · * (85 / 100)) then .runsWell
  else if vram.any (needed ≤ ·) ∨ ram.any (needed ≤ · * (5 / 10)) then .runsWithLimits
  else if ram = none then .unknown
  else .unlikely

theorem onCpu_verdict (hw : HardwareProbe) (needed : Rat) (evidence assumptions : List JsString) :
    (onCpu numberText hw needed evidence assumptions).verdict =
      if hw.totalRamBytes.value?.any (needed ≤ · * (5 / 10)) then .runsWithLimits
      else if hw.totalRamBytes.value? = none then .unknown else .unlikely := by
  unfold onCpu
  cases hw.totalRamBytes with
  | unknown why => rfl
  | known ram =>
    simp only [Fact.value?_known, Option.any_some, decide_eq_true_eq, reduceCtorEq, if_false]
    split_ifs <;> rfl

/-- Whatever it says along the way, `fit` goes down the ladder. -/
theorem fit_verdict (hw : HardwareProbe) (model : Model) : (fit numberText localeText hw model).verdict =
    match positive model.blobBytes with
    | none => .unknown
    | some weights => verdictOf weights (weights + overheadOf weights (positive model.contextTokens))
        hw.vramBytes.value? hw.totalRamBytes.value? hw.freeDiskBytes.value? := by
  unfold fit
  cases positive model.blobBytes with
  | none => rfl
  | some weights =>
    show FitResult.verdict (ite _ _ _) = verdictOf _ _ _ _ _
    unfold verdictOf
    by_cases hnone : hw.vramBytes.value? = none ∧ hw.totalRamBytes.value? = none
    · rw [if_pos hnone, if_pos hnone]
    rw [if_neg hnone, if_neg hnone]
    have hdisk : ∀ disk : Option Rat, (disk.filter (· < weights)).isSome = disk.any (· < weights) := fun disk => by
      cases disk <;> simp [Option.filter, apply_ite]
    cases hfree : hw.freeDiskBytes.value?.filter (· < weights) with
    | some free =>
      rw [← hdisk, hfree]
      rfl
    | none =>
      rw [← hdisk, hfree]
      cases hw.vramBytes with
      | unknown why =>
        simp only [Fact.value?_unknown, Option.any_none, Option.isSome_none, Bool.false_eq_true, if_false, false_or]
        exact onCpu_verdict numberText hw _ _ _
      | known vram =>
        simp only [Fact.value?_known, Option.any_some, decide_eq_true_eq, Option.isSome_none,
          Bool.false_eq_true, if_false]
        by_cases hwell : weights + overheadOf weights (positive model.contextTokens) ≤ vram * (85 / 100)
        · rw [if_pos hwell, if_pos hwell]
        by_cases hfits : weights + overheadOf weights (positive model.contextTokens) ≤ vram
        · rw [if_neg hwell, if_neg hwell, if_pos hfits, if_pos (.inl hfits)]
        · rw [if_neg hwell, if_neg hwell, if_neg hfits, onCpu_verdict]
          simp only [hfits, false_or]

/-! ## More of a machine, less of a model -/

/-- From the worst to the best. What is unknown is no refusal. -/
def Verdict.rank : Verdict → Nat
  | .unlikely => 0
  | .unknown => 1
  | .runsWithLimits => 2
  | .runsWell => 3

instance : LE Verdict := ⟨fun v w => v.rank ≤ w.rank⟩

theorem Verdict.unlikely_le (v : Verdict) : Verdict.unlikely ≤ v := Nat.zero_le v.rank

theorem Verdict.le_runsWell (v : Verdict) : v ≤ Verdict.runsWell := by
  show v.rank ≤ 3
  cases v <;> decide

/-- The second machine has at least as much of everything: what is known of one is known of the other. -/
structure HardwareProbe.AtMost (hw hw' : HardwareProbe) : Prop where
  vram : Option.Rel (· ≤ ·) hw.vramBytes.value? hw'.vramBytes.value?
  ram : Option.Rel (· ≤ ·) hw.totalRamBytes.value? hw'.totalRamBytes.value?
  disk : Option.Rel (· ≤ ·) hw.freeDiskBytes.value? hw'.freeDiskBytes.value?

/-- The second model is at least as large, with a context at least as long, where these are declared. -/
structure Model.AtMost (model model' : Model) : Prop where
  weights : Option.Rel (· ≤ ·) (positive model.blobBytes) (positive model'.blobBytes)
  context : Option.Rel (· ≤ ·) (positive model.contextTokens) (positive model'.contextTokens)

theorem positive_pos {n : Option Quantity} {q : Rat} (h : positive n = some q) : 0 < q := by
  unfold positive at h
  split at h
  · split_ifs at h with hle
    cases h
    exact lt_of_not_ge hle
  · cases h

theorem positive_finite {q : Rat} (h : 0 < q) : positive (some (.finite q)) = some q := if_neg (not_le_of_gt h)

theorem overheadOf_mono {weights weights' : Rat} {context context' : Option Rat} (hpos : 0 < weights)
    (hweights : weights ≤ weights')
    (hcontext : Option.Rel (· ≤ ·) context context') : overheadOf weights context ≤ overheadOf weights' context' := by
  cases hcontext with
  | none => exact max_le_max le_rfl (mul_le_mul_of_nonneg_right hweights (by norm_num))
  | some hle =>
    rename_i c c'
    have hscale : max 1 (c / baselineContext) ≤ max 1 (c' / baselineContext) :=
      max_le_max le_rfl (div_le_div_of_nonneg_right hle (by norm_num [baselineContext]))
    have hone : (0 : Rat) ≤ max 1 (c / baselineContext) := le_max_of_le_left (by norm_num)
    have hshare : weights * (15 / 100) ≤ weights' * (15 / 100) := mul_le_mul_of_nonneg_right hweights (by norm_num)
    exact max_le_max le_rfl (mul_le_mul hshare hscale hone (by linarith))

/-- A test that more does not fail. -/
theorem any_mono {a b : Option Rat} {p q : Rat → Bool} (hrel : Option.Rel (· ≤ ·) a b)
    (himp : ∀ x y, x ≤ y → p x = true → q y = true)
    (h : a.any p = true) : b.any q = true := by
  cases hrel with
  | none => exact h
  | some hle => exact himp _ _ hle h

theorem rel_none_iff {a b : Option Rat} (hrel : Option.Rel (· ≤ ·) a b) : a = none ↔ b = none := by
  cases hrel <;> simp only [reduceCtorEq]

/-- **The ladder is monotone**: each rung asks less of a smaller model and is met by more of a machine. -/
theorem verdictOf_mono {weights weights' needed needed' : Rat} {vram vram' ram ram' disk disk' : Option Rat}
    (hweights : weights' ≤ weights)
    (hneeded : needed' ≤ needed) (hvram : Option.Rel (· ≤ ·) vram vram') (hram : Option.Rel (· ≤ ·) ram ram')
    (hdisk : Option.Rel (· ≤ ·) disk disk') :
    verdictOf weights needed vram ram disk ≤ verdictOf weights' needed' vram' ram' disk' := by
  have hsame : vram = none ∧ ram = none ↔ vram' = none ∧ ram' = none := and_congr (rel_none_iff hvram) (rel_none_iff hram)
  unfold verdictOf
  by_cases hnone : vram = none ∧ ram = none
  · rw [if_pos hnone, if_pos (hsame.mp hnone)]
    exact Nat.le_refl _
  rw [if_neg hnone, if_neg (mt hsame.mpr hnone)]
  by_cases hshort : disk.any (· < weights) = true
  · rw [if_pos hshort]
    exact Verdict.unlikely_le _
  have hroom : ¬ disk'.any (· < weights') = true := by
    intro h
    cases hdisk with
    | none => exact hshort h
    | some hle => exact hshort (decide_eq_true (lt_of_le_of_lt hle (lt_of_lt_of_le (of_decide_eq_true h) hweights)))
  rw [if_neg hshort, if_neg hroom]
  by_cases hwell : vram.any (needed ≤ · * (85 / 100)) = true
  · have hwell' : vram'.any (needed' ≤ · * (85 / 100)) = true := by
      refine any_mono hvram (fun x y hle h => decide_eq_true ?_) hwell
      have := of_decide_eq_true h
      linarith
    rw [if_pos hwell']
    exact Verdict.le_runsWell _
  rw [if_neg hwell]
  by_cases hwell' : vram'.any (needed' ≤ · * (85 / 100)) = true
  · rw [if_pos hwell']
    exact Verdict.le_runsWell _
  rw [if_neg hwell']
  by_cases hruns : vram.any (needed ≤ ·) = true ∨ ram.any (needed ≤ · * (5 / 10)) = true
  · have hruns' : vram'.any (needed' ≤ ·) = true ∨ ram'.any (needed' ≤ · * (5 / 10)) = true := by
      refine hruns.imp (any_mono hvram fun x y hle h => decide_eq_true ?_) (any_mono hram fun x y hle h => decide_eq_true ?_)
      · have := of_decide_eq_true h
        linarith
      · have := of_decide_eq_true h
        linarith
    rw [if_pos hruns, if_pos hruns']
    exact Nat.le_refl _
  rw [if_neg hruns]
  by_cases hram' : ram = none
  · rw [if_pos hram', if_pos ((rel_none_iff hram).mp hram')]
    split_ifs <;> decide
  · rw [if_neg hram']
    exact Verdict.unlikely_le _

/-- **The verdict is monotone** in the machine, and the other way in the model. -/
theorem fit_mono {hw hw' : HardwareProbe} {model model' : Model} (hmachine : hw.AtMost hw') (hmodel : model'.AtMost model) :
    (fit numberText localeText hw model).verdict ≤ (fit numberText localeText hw' model').verdict := by
  rw [fit_verdict, fit_verdict]
  have hpos : ∀ q, positive model'.blobBytes = some q → 0 < q := fun q h => positive_pos h
  have hweights := hmodel.weights
  revert hpos hweights
  cases positive model'.blobBytes with
  | none =>
    rintro - hweights
    rw [(rel_none_iff hweights).mp rfl]
    exact Nat.le_refl _
  | some weights' =>
    intro hpos hweights
    cases hlarge : positive model.blobBytes with
    | none =>
      rw [hlarge] at hweights
      cases hweights
    | some weights =>
      rw [hlarge] at hweights
      have hle : weights' ≤ weights := by
        cases hweights with
        | some hle => exact hle
      have hover := overheadOf_mono (hpos weights' rfl) hle hmodel.context
      exact verdictOf_mono hle (add_le_add hle hover) hmachine.vram hmachine.ram hmachine.disk

end

/-- Two laptops with the same disk, and what they are asked to run. -/
def laptop : HardwareProbe :=
    ⟨js "2026-01-01T00:00:00.000Z", .known (8 * 1024 ^ 3), .unknown (js "No GPU was identified."), .known (90 * 1024 ^ 3)⟩
def largerLaptop : HardwareProbe := { laptop with totalRamBytes := .known (16 * 1024 ^ 3) }
def smallModel : Model := ⟨some (.finite (4 * 1024 ^ 3)), none, some (js "Q4_0"), some (.finite 4096)⟩
def longModel : Model := { smallModel with contextTokens := some (.finite 16384) }

def inThousands (q : Rat) : JsString := if q = 4096 then js "4,096" else js "16,384"

theorem fit_mono_laptops : (fit (fun _ => js "7000000000") inThousands laptop longModel).verdict ≤
    (fit (fun _ => js "7000000000") inThousands largerLaptop smallModel).verdict := by
  have hsize : positive (some (.finite (4 * 1024 ^ 3))) = some (4 * 1024 ^ 3) := positive_finite (by norm_num)
  have hshort : positive (some (.finite 4096)) = some 4096 := positive_finite (by norm_num)
  have hlong : positive (some (.finite 16384)) = some 16384 := positive_finite (by norm_num)
  have hmodel : smallModel.AtMost longModel := by
    refine ⟨?_, ?_⟩
    · show Option.Rel _ (positive (some (.finite (4 * 1024 ^ 3)))) (positive (some (.finite (4 * 1024 ^ 3))))
      rw [hsize]
      exact .some le_rfl
    · show Option.Rel _ (positive (some (.finite 4096))) (positive (some (.finite 16384)))
      rw [hshort, hlong]
      exact .some (by norm_num)
  exact fit_mono _ _ ⟨.none, .some (by norm_num), .some le_rfl⟩ hmodel

example : (fit (fun _ => js "7000000000") inThousands laptop longModel).verdict = .unlikely := by decide +kernel

/-! ## A fact less -/

/-- How the tests (`scripts/test-fit.mjs`) rank the verdicts: `Unknown` is the last. -/
def RANK : Verdict → Nat
  | .runsWell => 3
  | .runsWithLimits => 2
  | .unlikely => 1
  | .unknown => 0

/-- A fact that may not be known. -/
inductive Missing where
  | vram
  | ram
  | disk
  | size
  | parameters
  | quantisation
  | context
deriving DecidableEq

/-- The machine without the fact, and why. -/
def Missing.machine (fact : Missing) (why : JsString) (hw : HardwareProbe) : HardwareProbe :=
  match fact with
  | .vram => { hw with vramBytes := .unknown why }
  | .ram => { hw with totalRamBytes := .unknown why }
  | .disk => { hw with freeDiskBytes := .unknown why }
  | _ => hw

/-- The model without the fact. -/
def Missing.model (fact : Missing) (model : Model) : Model :=
  match fact with
  | .size => { model with blobBytes := none }
  | .parameters => { model with parameterCount := none }
  | .quantisation => { model with quantisation := none }
  | .context => { model with contextTokens := none }
  | _ => model

/-- How many times the baseline is allowed for a context window, declared or not. -/
def scaleOf : Option Rat → Rat
  | some context => max 1 (context / baselineContext)
  | none => 2

/-- The weights fit into a memory, with so many times the baseline beside them. -/
def Room (weights scale memory : Rat) : Prop := weights + max floorBytes (weights * (15 / 100) * scale) ≤ memory

/-- The model fits into the GPU's memory with headroom. -/
def HardwareProbe.RunsWell (hw : HardwareProbe) (weights scale : Rat) : Prop :=
  ∃ vram, hw.vramBytes.value? = some vram ∧ Room weights scale (vram * (85 / 100))

/-- It fits into the GPU's memory, or well into that of the system. -/
def HardwareProbe.Runs (hw : HardwareProbe) (weights scale : Rat) : Prop :=
  (∃ vram, hw.vramBytes.value? = some vram ∧ Room weights scale vram) ∨
    ∃ ram, hw.totalRamBytes.value? = some ram ∧ Room weights scale (ram * (5 / 10))

/-- Without the fact the machine and the model do not look better. -/
def Harmless (hw : HardwareProbe) (model : Model) : Missing → Prop
  | .disk => ∀ weights free, positive model.blobBytes = some weights → hw.freeDiskBytes.value? = some free → free < weights →
      ¬ hw.Runs weights (scaleOf (positive model.contextTokens))
  | .context => ∀ weights, positive model.blobBytes = some weights →
      (∀ free, hw.freeDiskBytes.value? = some free → weights ≤ free) →
      (hw.RunsWell weights 2 → hw.RunsWell weights (scaleOf (positive model.contextTokens))) ∧
        (hw.Runs weights 2 → hw.Runs weights (scaleOf (positive model.contextTokens)))
  | _ => True

theorem overheadOf_eq (weights : Rat) (context : Option Rat) :
    overheadOf weights context = max floorBytes (weights * (15 / 100) * scaleOf context) := by
  cases context with
  | none =>
    have htwice : weights * (3 / 10) = weights * (15 / 100) * 2 := by ring
    rw [overheadOf, scaleOf, htwice]
  | some context => rfl

theorem Room.pos {weights scale memory : Rat} (hpos : 0 < weights) (h : Room weights scale memory) : 0 < memory := by
  have hfloor : (0 : Rat) < floorBytes := by norm_num [floorBytes]
  have hmax := le_max_left floorBytes (weights * (15 / 100) * scale)
  unfold Room at h
  linarith

/-- What runs well runs. -/
theorem HardwareProbe.RunsWell.runs {hw : HardwareProbe} {weights scale : Rat} (hpos : 0 < weights)
    (h : hw.RunsWell weights scale) : hw.Runs weights scale := by
  obtain ⟨vram, hvram, hroom⟩ := h
  have hlarge := hroom.pos hpos
  refine .inl ⟨vram, hvram, le_trans hroom ?_⟩
  linarith

section
variable {weights needed : Rat} {vram ram disk : Option Rat}

/-- The rank of a verdict, rung by rung. -/
theorem RANK_verdictOf : RANK (verdictOf weights needed vram ram disk) =
    if vram = none ∧ ram = none then 0
    else if disk.any (· < weights) then 1
    else if vram.any (needed ≤ · * (85 / 100)) then 3
    else if vram.any (needed ≤ ·) ∨ ram.any (needed ≤ · * (5 / 10)) then 2
    else if ram = none then 0
    else 1 := by
  unfold verdictOf
  split_ifs <;> rfl

theorem RANK_without_ram : RANK (verdictOf weights needed vram none disk) ≤ RANK
    (verdictOf weights needed vram ram disk) := by
  rw [RANK_verdictOf, RANK_verdictOf]
  cases vram with
  | none => exact Nat.zero_le _
  | some vram =>
    simp only [reduceCtorEq, false_and, if_false, Option.any_none, Bool.false_eq_true, or_false, if_true]
    by_cases hdisk : disk.any (· < weights) = true
    · rw [if_pos hdisk, if_pos hdisk]
    rw [if_neg hdisk, if_neg hdisk]
    by_cases hwell : (some vram).any (needed ≤ · * (85 / 100)) = true
    · rw [if_pos hwell, if_pos hwell]
    rw [if_neg hwell, if_neg hwell]
    by_cases hfits : (some vram).any (needed ≤ ·) = true
    · rw [if_pos hfits, if_pos (.inl hfits)]
    · rw [if_neg hfits]
      exact Nat.zero_le _

theorem RANK_without_vram : RANK (verdictOf weights needed none ram disk) ≤ RANK
    (verdictOf weights needed vram ram disk) := by
  rw [RANK_verdictOf, RANK_verdictOf]
  cases ram with
  | none => exact Nat.zero_le _
  | some ram =>
    simp only [reduceCtorEq, and_false, if_false, Option.any_none, Bool.false_eq_true, false_or]
    by_cases hdisk : disk.any (· < weights) = true
    · rw [if_pos hdisk, if_pos hdisk]
    rw [if_neg hdisk, if_neg hdisk]
    by_cases hwell : vram.any (needed ≤ · * (85 / 100)) = true
    · rw [if_pos hwell]
      split_ifs <;> decide
    rw [if_neg hwell]
    by_cases hruns : (some ram).any (needed ≤ · * (5 / 10)) = true
    · rw [if_pos hruns, if_pos (.inr hruns)]
    · rw [if_neg hruns]
      split_ifs <;> decide

/-- A disk that is too small is what its size is asked for. -/
theorem RANK_without_disk : RANK (verdictOf weights needed vram ram disk) < RANK (verdictOf weights needed vram ram none) ↔
    disk.any (· < weights) = true ∧ (vram.any (needed ≤ · * (85 / 100)) = true ∨ vram.any (needed ≤ ·) = true ∨
      ram.any (needed ≤ · * (5 / 10)) = true) := by
  rw [RANK_verdictOf, RANK_verdictOf]
  simp only [Option.any_none, Bool.false_eq_true, if_false]
  by_cases hnone : vram = none ∧ ram = none
  · rw [if_pos hnone, hnone.1, hnone.2]
    simp
  rw [if_neg hnone, if_neg hnone]
  by_cases hdisk : disk.any (· < weights) = true
  · rw [if_pos hdisk]
    simp only [hdisk, true_and]
    by_cases hwell : vram.any (needed ≤ · * (85 / 100)) = true
    · rw [if_pos hwell]
      exact iff_of_true (by decide) (.inl hwell)
    rw [if_neg hwell]
    by_cases hruns : vram.any (needed ≤ ·) = true ∨ ram.any (needed ≤ · * (5 / 10)) = true
    · rw [if_pos hruns]
      exact iff_of_true (by decide) (.inr hruns)
    · rw [if_neg hruns]
      refine iff_of_false ?_ (not_or.mpr ⟨hwell, hruns⟩)
      split_ifs <;> decide
  · rw [if_neg hdisk]
    exact iff_of_false (lt_irrefl _) fun h => hdisk h.1

/-- What is allowed for decides while there is room on the disk. -/
theorem RANK_other_needs {needed' : Rat} (hdisk : ¬ disk.any (· < weights) = true) :
    RANK (verdictOf weights needed vram ram disk) < RANK (verdictOf weights needed' vram ram disk) ↔
      ¬ vram.any (needed ≤ · * (85 / 100)) = true ∧ (vram.any (needed' ≤ · * (85 / 100)) = true ∨
        ¬ (vram.any (needed ≤ ·) = true ∨ ram.any (needed ≤ · * (5 / 10)) = true) ∧
          (vram.any (needed' ≤ ·) = true ∨ ram.any (needed' ≤ · * (5 / 10)) = true)) := by
  rw [RANK_verdictOf, RANK_verdictOf]
  by_cases hnone : vram = none ∧ ram = none
  · rw [if_pos hnone, if_pos hnone, hnone.1, hnone.2]
    simp
  rw [if_neg hnone, if_neg hnone, if_neg hdisk, if_neg hdisk]
  by_cases hwell : vram.any (needed ≤ · * (85 / 100)) = true
  · rw [if_pos hwell]
    refine iff_of_false ?_ fun h => h.1 hwell
    split_ifs <;> decide
  rw [if_neg hwell]
  by_cases hwell' : vram.any (needed' ≤ · * (85 / 100)) = true
  · rw [if_pos hwell']
    refine iff_of_true ?_ ⟨hwell, .inl hwell'⟩
    split_ifs <;> decide
  rw [if_neg hwell']
  by_cases hruns : vram.any (needed ≤ ·) = true ∨ ram.any (needed ≤ · * (5 / 10)) = true
  · rw [if_pos hruns]
    refine iff_of_false ?_ fun h => h.2.elim hwell' fun h => h.1 hruns
    split_ifs <;> decide
  rw [if_neg hruns]
  by_cases hruns' : vram.any (needed' ≤ ·) = true ∨ ram.any (needed' ≤ · * (5 / 10)) = true
  · rw [if_pos hruns']
    refine iff_of_true ?_ ⟨hwell, .inr ⟨hruns, hruns'⟩⟩
    split_ifs <;> decide
  · rw [if_neg hruns']
    exact iff_of_false (lt_irrefl _) fun h => h.2.elim hwell' fun h => hruns' h.2

end

/-- A test of a fact that is known. -/
theorem any_iff {fact : Option Rat} {p : Rat → Prop} [DecidablePred p] :
    fact.any (fun q => decide (p q)) = true ↔ ∃ q, fact = some q ∧ p q := by
  cases fact with
  | none => simp
  | some q => simp

theorem runsWell_iff {hw : HardwareProbe} {weights : Rat} {context : Option Rat} :
    hw.vramBytes.value?.any (weights + overheadOf weights context ≤ · * (85 / 100)) = true ↔
      hw.RunsWell weights (scaleOf context) := by
  rw [any_iff, overheadOf_eq]
  rfl

theorem runs_iff {hw : HardwareProbe} {weights : Rat} {context : Option Rat} :
    hw.vramBytes.value?.any (weights + overheadOf weights context ≤ ·) = true ∨
      hw.totalRamBytes.value?.any (weights + overheadOf weights context ≤ · * (5 / 10)) = true ↔
      hw.Runs weights (scaleOf context) := by
  rw [any_iff, any_iff, overheadOf_eq]
  rfl

section
variable (numberText : Quantity → JsString) (localeText : Rat → JsString)

/-- **Not knowing a fact makes a verdict better exactly where it does harm**: a disk that is too small for a model that would
run, or a context window that asks for more than one that is not declared. -/
theorem conservative_iff (hw : HardwareProbe) (model : Model) (fact : Missing) (why : JsString) :
    RANK (fit numberText localeText (fact.machine why hw) (fact.model model)).verdict ≤
      RANK (fit numberText localeText hw model).verdict ↔ Harmless hw model fact := by
  rw [fit_verdict, fit_verdict]
  cases hsize : positive model.blobBytes with
  | none =>
    -- without a size there is no verdict, before and after
    have hsize' : positive (fact.model model).blobBytes = none := by
      cases fact <;> first | exact hsize | rfl
    rw [hsize']
    refine iff_of_true le_rfl ?_
    cases fact <;> simp [Harmless, hsize]
  | some weights =>
    have hpos := positive_pos hsize
    cases fact with
    | vram =>
      simp only [Missing.model, Missing.machine, hsize, Fact.value?_unknown]
      exact iff_of_true RANK_without_vram trivial
    | ram =>
      simp only [Missing.model, Missing.machine, hsize, Fact.value?_unknown]
      exact iff_of_true RANK_without_ram trivial
    | size => exact iff_of_true (Nat.zero_le _) trivial
    | parameters =>
      simp only [Missing.model, Missing.machine, hsize]
      exact iff_of_true le_rfl trivial
    | quantisation =>
      simp only [Missing.model, Missing.machine, hsize]
      exact iff_of_true le_rfl trivial
    | disk =>
      simp only [Missing.model, Missing.machine, hsize, Fact.value?_unknown]
      rw [← not_lt, RANK_without_disk, any_iff, runsWell_iff, runs_iff]
      simp only [Harmless, hsize, Option.some.injEq]
      constructor
      · rintro h _ free rfl hfree hless hruns
        exact h ⟨⟨free, hfree, hless⟩, .inr hruns⟩
      · rintro h ⟨⟨free, hfree, hless⟩, hruns⟩
        exact h weights free rfl hfree hless (hruns.elim (·.runs hpos) id)
    | context =>
      simp only [Missing.model, Missing.machine, hsize]
      have hnone : positive none = none := rfl
      rw [hnone, ← not_lt]
      simp only [Harmless, hsize, Option.some.injEq, forall_eq']
      by_cases hdisk : hw.freeDiskBytes.value?.any (· < weights) = true
      · -- too small a disk decides
        obtain ⟨free, hfree, hless⟩ := any_iff.mp hdisk
        refine iff_of_true ?_ fun h => absurd (h free hfree) (not_le_of_gt hless)
        rw [RANK_verdictOf, RANK_verdictOf, if_pos hdisk, if_pos hdisk]
        exact lt_irrefl _
      · have hroom : ∀ free, hw.freeDiskBytes.value? = some free → weights ≤ free := fun free hfree =>
          le_of_not_gt fun hless => hdisk (any_iff.mpr ⟨free, hfree, hless⟩)
        rw [RANK_other_needs hdisk, runsWell_iff, runsWell_iff, runs_iff, runs_iff]
        constructor
        · intro h _
          refine ⟨fun hwell => by_contra fun hnot => h ⟨hnot, .inl hwell⟩, fun hruns => by_contra fun hnot => ?_⟩
          exact h ⟨fun hwell => hnot (hwell.runs hpos), .inr ⟨hnot, hruns⟩⟩
        · rintro h ⟨hnot, hwell | ⟨hnotRuns, hruns⟩⟩
          · exact hnot ((h hroom).1 hwell)
          · exact hnotRuns ((h hroom).2 hruns)

end

/-- A machine with a GPU, and a model of 6 GB that declares a long context window. -/
def desktop : HardwareProbe :=
  ⟨js "2026-01-01T00:00:00.000Z", .known (16 * 1024 ^ 3), .known (8 * 1024 ^ 3), .known (2 * 1024 ^ 3)⟩
def roomyDesktop : HardwareProbe := { desktop with freeDiskBytes := .known (90 * 1024 ^ 3) }
def declaredModel : Model := ⟨some (.finite (6 * 1024 ^ 3)), none, none, some (.finite 131072)⟩
def shortModel : Model := { declaredModel with contextTokens := some (.finite 4096) }

/-- **Not knowing makes a verdict better**: what context window is declared, and how small the disk is. -/
theorem unknown_flatters :
    (¬ ∀ (numberText : Quantity → JsString) (localeText : Rat → JsString) (hw : HardwareProbe) (model : Model),
      RANK (fit numberText localeText hw (Missing.context.model model)).verdict ≤
        RANK (fit numberText localeText hw model).verdict) ∧
    ¬ ∀ (numberText : Quantity → JsString) (localeText : Rat → JsString) (hw : HardwareProbe)
      (model : Model) (why : JsString),
      RANK (fit numberText localeText (Missing.disk.machine why hw) model).verdict ≤
        RANK (fit numberText localeText hw model).verdict := by
  constructor
  · intro h
    exact absurd (h (fun _ => []) (fun _ => []) roomyDesktop declaredModel) (by decide +kernel)
  · intro h
    exact absurd (h (fun _ => []) (fun _ => []) desktop shortModel []) (by decide +kernel)

end Hardware
end MaterialOpenWebui
