import MaterialOpenWebui.Lib.Rolling
import MaterialOpenWebui.Py.Numeral
import Mathlib.Algebra.Order.Field.Rat
import Mathlib.Algebra.Order.Floor.Defs
import Mathlib.Data.Rat.Floor
import Mathlib.Tactic.Linarith

/-!
# `Access.RateLimit` — the rolling window of `RateLimiter` (`backend/open_webui/utils/rate_limit.py`)

Calls are counted by key and by bucket of time, in Redis, where a bucket expires a window and a bucket after its first
call, or in memory, where each call drops the buckets before the window. A call is limited when the buckets of the window,
its own and `num_buckets` before it, hold more than `limit` calls, limited ones too.

The buckets are aligned and the windows are not: what carries over is that the buckets cover the window that ends with the
call (`recent_le_sum`), that no bucket in it is lost before (`Kept`), and that each call there has been counted.

Time is in seconds since the epoch. Redis is seen as the counts it keeps by key, and its clock as the one the call read.
-/

namespace MaterialOpenWebui
namespace RateLimit
open Py

/-! ## The limiter -/

structure RateLimiter where
  limit : Int
  window : Int
  bucket_size : Int
  num_buckets : Int
  enabled : Bool

/-- `__init__`, without the client. -/
def RateLimiter.init (limit window bucket_size : Int) (enabled : Bool) : RateLimiter where
  limit := limit
  window := window
  bucket_size := bucket_size
  num_buckets := window.fdiv bucket_size
  enabled := enabled

/-- `int(time.time())`. -/
def seconds (now : Rat) : Int := now.num.tdiv now.den

def RateLimiter._current_bucket (self : RateLimiter) (now : Rat) : Int := (seconds now).fdiv self.bucket_size

section
variable (REDIS_KEY_PREFIX : Str) (lower : Str → Str)

def _bucket_key (key : Str) (bucket_index : Int) : Str :=
  REDIS_KEY_PREFIX ++ py ":ratelimit:" ++ lower key ++ py ":" ++ (intNumeral bucket_index).text

/-! ## Redis -/

/-- A count, and when it expires. -/
structure Entry where
  count : Nat
  expires : Option Rat

abbrev Redis := Dict Str Entry

/-- What has not expired. -/
def Redis.live (r : Redis) (now : Rat) (k : Str) : Option Entry :=
  (r.get? k).filter fun e => e.expires.all fun t => now < t

/-- `INCR`: a key that is not there starts at zero, and without expiry. -/
def Redis.incr (r : Redis) (now : Rat) (k : Str) : Nat × Redis :=
  match r.live now k with
  | some e => (e.count + 1, r.set k { e with count := e.count + 1 })
  | none => (1, r.set k ⟨1, none⟩)

def Redis.expire (r : Redis) (now : Rat) (k : Str) (seconds : Int) : Redis :=
  match r.live now k with
  | some e => r.set k { e with expires := some (now + seconds) }
  | none => r

def Redis.mget (r : Redis) (now : Rat) (ks : List Str) : List (Option Nat) :=
  ks.map fun k => (r.live now k).map Entry.count

/-- The buckets of the window, from the current one back. -/
def RateLimiter.buckets (self : RateLimiter) (now : Rat) : List Int :=
  (List.range (self.num_buckets + 1).toNat).map fun i : Nat => self._current_bucket now - i

def RateLimiter._is_limited_redis (self : RateLimiter) (key : Str) (now : Rat) (r : Redis) : Bool × Redis :=
  let bucket_key := _bucket_key REDIS_KEY_PREFIX lower key (self._current_bucket now)
  let (attempts, r) := r.incr now bucket_key
  let r := if attempts = 1 then r.expire now bucket_key (self.window + self.bucket_size) else r
  let counts := r.mget now ((self.buckets now).map (_bucket_key REDIS_KEY_PREFIX lower key))
  let total := (counts.filterMap id).sum
  (decide (self.limit < total), r)

/-! ## Memory -/

abbrev Memory := Dict Str (Dict Int Nat)

def RateLimiter._is_limited_memory (self : RateLimiter) (key : Str) (now : Rat) (_memory_store : Memory) :
    Bool × Memory :=
  let now_bucket := self._current_bucket now
  let store := (_memory_store.get? key).getD .empty
  let store := store.set now_bucket ((store.get? now_bucket).getD 0 + 1)
  let min_bucket := now_bucket - self.num_buckets
  let store := store.filter fun b _ => !decide (b < min_bucket)
  let total := (store.items.map Prod.snd).sum
  (decide (self.limit < total), _memory_store.set key store)

/-- The Redis the client is for, if there is a client, and the class's own store. -/
structure Stores where
  redis : Option Redis
  memory : Memory

/-- `is_limited`, where Redis answers or, with `answers = false`, raises. -/
def RateLimiter.is_limited (self : RateLimiter) (key : Str) (answers : Bool) (now : Rat) (s : Stores) : Bool × Stores :=
  if self.enabled then
    match s.redis, answers with
    | some r, true =>
        let (limited, r) := self._is_limited_redis REDIS_KEY_PREFIX lower key now r
        (limited, { s with redis := some r })
    | _, _ =>
        let (limited, memory) := self._is_limited_memory key now s.memory
        (limited, { s with memory := memory })
  else (false, s)

end

/-! ## Buckets of time -/

/-- The window is a number of whole buckets. -/
structure RateLimiter.Regular (limiter : RateLimiter) : Prop where
  size : 0 < limiter.bucket_size
  buckets : 0 ≤ limiter.num_buckets
  window : limiter.num_buckets * limiter.bucket_size = limiter.window

theorem regular_init {limit window bucket_size : Int} {enabled : Bool} (hsize : 0 < bucket_size) (hwindow : 0 ≤ window)
    (hdvd : bucket_size ∣ window) : (RateLimiter.init limit window bucket_size enabled).Regular := by
  obtain ⟨n, rfl⟩ := hdvd
  have hn : (bucket_size * n).fdiv bucket_size = n := Int.mul_fdiv_cancel_left n (Int.ne_of_gt hsize)
  have hnonneg : 0 ≤ n := Int.nonneg_of_mul_nonneg_right hwindow hsize
  refine ⟨hsize, ?_, ?_⟩
  · show 0 ≤ (bucket_size * n).fdiv bucket_size
    rw [hn]
    exact hnonneg
  · show (bucket_size * n).fdiv bucket_size * bucket_size = bucket_size * n
    rw [hn, Int.mul_comm]

theorem seconds_eq_floor {now : Rat} (h : 0 ≤ now) : seconds now = ⌊now⌋ := by
  rw [seconds, Int.tdiv_eq_ediv_of_nonneg (Rat.num_nonneg.mpr h), Rat.floor_def']

theorem nodup_buckets (self : RateLimiter) (now : Rat) : (self.buckets now).Nodup := by
  refine List.nodup_range.map ?_
  intro i j hij
  have : self._current_bucket now - (i : Int) = self._current_bucket now - (j : Int) := hij
  omega

/-- The number of the calls that fall into a bucket. -/
def RateLimiter.tally (self : RateLimiter) (times : List Rat) (b : Int) : Nat :=
  times.countP fun t => self._current_bucket t = b

section
variable {self : RateLimiter} (hself : self.Regular)
include hself

theorem current_bucket_eq (now : Rat) : self._current_bucket now = seconds now / self.bucket_size :=
  Int.fdiv_eq_ediv_of_nonneg _ (Int.le_of_lt hself.size)

theorem bucket_start_le {t : Rat} (ht : 0 ≤ t) : ((self._current_bucket t * self.bucket_size : Int) : Rat) ≤ t := by
  have hle : self._current_bucket t * self.bucket_size ≤ ⌊t⌋ := by
    rw [current_bucket_eq hself, seconds_eq_floor ht]
    exact Int.ediv_mul_le _ (Int.ne_of_gt hself.size)
  exact Int.le_floor.mp hle

theorem lt_bucket_end {t : Rat} (ht : 0 ≤ t) : t < (((self._current_bucket t + 1) * self.bucket_size : Int) : Rat) := by
  have hlt : ⌊t⌋ < (self._current_bucket t + 1) * self.bucket_size := by
    rw [current_bucket_eq hself, seconds_eq_floor ht]
    exact Int.lt_ediv_add_one_mul_self _ hself.size
  exact Int.floor_lt.mp hlt

theorem bucket_mono {x t : Rat} (hx : 0 ≤ x) (h : x ≤ t) : self._current_bucket x ≤ self._current_bucket t := by
  have hlt : self._current_bucket x * self.bucket_size < (self._current_bucket t + 1) * self.bucket_size := by
    have hx' := bucket_start_le hself hx
    have ht' := lt_bucket_end hself (hx.trans h)
    exact_mod_cast (hx'.trans h).trans_lt ht'
  have := lt_of_mul_lt_mul_right hlt (Int.le_of_lt hself.size)
  omega

/-- No more buckets lie between two times than between the ends of a window. -/
theorem bucket_sub_le {x t : Rat} (hx : 0 ≤ x) (ht : 0 ≤ t) (h : t ≤ x + self.window) :
    self._current_bucket t - self.num_buckets ≤ self._current_bucket x := by
  have hlt : self._current_bucket t * self.bucket_size <
      (self._current_bucket x + 1 + self.num_buckets) * self.bucket_size := by
    have hx' := lt_bucket_end hself hx
    have ht' := bucket_start_le hself ht
    have hend : ((self._current_bucket t * self.bucket_size : Int) : Rat) <
        (((self._current_bucket x + 1) * self.bucket_size + self.window : Int) : Rat) := by
      rw [Int.cast_add]
      linarith
    rw [← hself.window, ← Int.add_mul] at hend
    exact_mod_cast hend
  have := lt_of_mul_lt_mul_right hlt (Int.le_of_lt hself.size)
  omega

theorem mem_buckets {now : Rat} {b : Int} :
    b ∈ self.buckets now ↔ self._current_bucket now - self.num_buckets ≤ b ∧ b ≤ self._current_bucket now := by
  have hbuckets := hself.buckets
  rw [RateLimiter.buckets, List.mem_map]
  constructor
  · rintro ⟨i, hi, rfl⟩
    rw [List.mem_range] at hi
    omega
  · rintro ⟨hfirst, hlast⟩
    refine ⟨(self._current_bucket now - b).toNat, ?_, ?_⟩
    · rw [List.mem_range]
      omega
    · omega

/-- The buckets of the window hold every recent call. -/
theorem recent_le_sum {times : List Rat} {now : Rat} (htimes : ∀ x ∈ times, 0 ≤ x ∧ x ≤ now) (hnow : 0 ≤ now) :
    Rolling.recent (self.window : Rat) now times ≤ ((self.buckets now).map (self.tally times)).sum := by
  refine Rolling.countP_le_sum self._current_bucket ?_
  intro x hx hrecent
  have hnear : now ≤ x + self.window := of_decide_eq_true hrecent
  have ⟨hpos, hle⟩ := htimes x hx
  exact (mem_buckets hself).mpr ⟨bucket_sub_le hself hpos hnow hnear, bucket_mono hself hpos hle⟩

end

theorem tally_snoc (self : RateLimiter) (times : List Rat) (now : Rat) (b : Int) : self.tally (times ++ [now]) b =
    self.tally times b + if self._current_bucket now = b then 1 else 0 := by
  simp [RateLimiter.tally, List.countP_append, List.countP_cons]

/-! ## What is kept -/

theorem intNumeral_text_inj {n m : Int} (h : (intNumeral n).text = (intNumeral m).text) : n = m := by
  have hn := scanNumeral_text (valid_intNumeral n) stops_nil
  have hm := scanNumeral_text (valid_intNumeral m) stops_nil
  rw [h, hm, Option.some.injEq, Prod.mk.injEq] at hn
  rw [← toInt_intNumeral n, ← toInt_intNumeral m, hn.1]

theorem live_eq_none {r : Redis} {k : Str} (h : r.get? k = none) (now : Rat) : r.live now k = none := by
  rw [Redis.live, h]
  rfl

theorem live_eq_some {r : Redis} {k : Str} {n : Nat} {e now : Rat} (h : r.get? k = some ⟨n, some e⟩) (hnow : now < e) :
    r.live now k = some ⟨n, some e⟩ := by
  rw [Redis.live, h]
  exact Option.filter_some_pos (decide_eq_true hnow)

theorem live_set_none (r : Redis) (k : Str) (n : Nat) (now : Rat) :
    Redis.live (r.set k ⟨n, none⟩) now k = some ⟨n, none⟩ := by
  rw [Redis.live, Dict.get?_set_self]
  rfl

theorem bucket_key_inj {REDIS_KEY_PREFIX : Str} {lower : Str → Str} {key : Str} {b b' : Int}
    (h : _bucket_key REDIS_KEY_PREFIX lower key b = _bucket_key REDIS_KEY_PREFIX lower key b') : b = b' :=
  intNumeral_text_inj (List.append_cancel_left h)

section
variable (REDIS_KEY_PREFIX : Str) (lower : Str → Str) (self : RateLimiter) (key : Str)

/-- A bucket holds the number of its calls, for a window after its end; one without calls may be missing. -/
def Counted (r : Redis) (times : List Rat) (b : Int) : Prop :=
  r.get? (_bucket_key REDIS_KEY_PREFIX lower key b) = none ∧ self.tally times b = 0 ∨
    ∃ e, r.get? (_bucket_key REDIS_KEY_PREFIX lower key b) = some ⟨self.tally times b, some e⟩ ∧
      (((b + 1) * self.bucket_size + self.window : Int) : Rat) ≤ e

def Kept (r : Redis) (times : List Rat) : Prop := ∀ b, Counted REDIS_KEY_PREFIX lower self key r times b

variable {REDIS_KEY_PREFIX lower self key}

/-- What is read of a bucket that cannot have expired. -/
theorem Counted.read {r : Redis} {times : List Rat} {b : Int} {now : Rat}
    (h : Counted REDIS_KEY_PREFIX lower self key r times b)
    (hnow : now < (((b + 1) * self.bucket_size + self.window : Int) : Rat)) :
    ((r.live now (_bucket_key REDIS_KEY_PREFIX lower key b)).map Entry.count).getD 0 = self.tally times b := by
  rcases h with ⟨hnone, hzero⟩ | ⟨e, hsome, hexpires⟩
  · rw [live_eq_none hnone, hzero]
    rfl
  · rw [live_eq_some hsome (hnow.trans_le hexpires)]
    rfl

variable (hself : self.Regular)
include hself

theorem window_nonneg : 0 ≤ self.window := by
  rw [← hself.window]
  exact Int.mul_nonneg hself.buckets (Int.le_of_lt hself.size)

/-- **One call** counts itself in its bucket, which outlives the window. -/
theorem redis_get? {r : Redis} {times : List Rat} {now : Rat} (hnow : 0 ≤ now)
    (h : Counted REDIS_KEY_PREFIX lower self key r times (self._current_bucket now)) :
    ∃ e, (((self._current_bucket now + 1) * self.bucket_size + self.window : Int) : Rat) ≤ e ∧
      ∀ k, (self._is_limited_redis REDIS_KEY_PREFIX lower key now r).2.get? k =
        if k = _bucket_key REDIS_KEY_PREFIX lower key (self._current_bucket now) then
          some ⟨self.tally times (self._current_bucket now) + 1, some e⟩
        else r.get? k := by
  have hwindow : (0 : Rat) ≤ (self.window : Rat) := Int.cast_nonneg (window_nonneg hself)
  have hfresh : (((self._current_bucket now + 1) * self.bucket_size + self.window : Int) : Rat) ≤
      now + ((self.window + self.bucket_size : Int) : Rat) := by
    have hstart := bucket_start_le hself hnow
    push_cast at hstart ⊢
    linarith
  rcases h with ⟨hnone, hzero⟩ | ⟨e, hsome, hexpires⟩
  · -- the first call of the bucket sets when it expires
    refine ⟨_, hfresh, ?_⟩
    intro k
    simp only [RateLimiter._is_limited_redis, Redis.incr, live_eq_none hnone, if_true, Redis.expire, live_set_none,
      Dict.get?_set, hzero]
    split <;> rfl
  · have halive : now < e := by
      have hend := lt_bucket_end hself hnow
      push_cast at hend hexpires
      linarith
    by_cases hfirst : self.tally times (self._current_bucket now) + 1 = 1
    · refine ⟨_, hfresh, ?_⟩
      intro k
      have hset : Redis.live (r.set (_bucket_key REDIS_KEY_PREFIX lower key (self._current_bucket now))
          ⟨self.tally times (self._current_bucket now) + 1, some e⟩) now
          (_bucket_key REDIS_KEY_PREFIX lower key (self._current_bucket now)) = some ⟨_, some e⟩ :=
        live_eq_some (Dict.get?_set_self ..) halive
      simp only [RateLimiter._is_limited_redis, Redis.incr, live_eq_some hsome halive, if_pos hfirst, Redis.expire,
        hset, Dict.get?_set]
      split <;> rfl
    · refine ⟨e, hexpires, ?_⟩
      intro k
      simp only [RateLimiter._is_limited_redis, Redis.incr, live_eq_some hsome halive, if_neg hfirst, Dict.get?_set]

theorem kept_snoc {r : Redis} {times : List Rat} {now : Rat} (hnow : 0 ≤ now)
    (h : Kept REDIS_KEY_PREFIX lower self key r times) :
    Kept REDIS_KEY_PREFIX lower self key (self._is_limited_redis REDIS_KEY_PREFIX lower key now r).2
      (times ++ [now]) := by
  obtain ⟨e, hexpires, hget⟩ := redis_get? hself hnow (h (self._current_bucket now))
  intro b
  by_cases hb : b = self._current_bucket now
  · subst hb
    refine .inr ⟨e, ?_, hexpires⟩
    rw [hget, if_pos rfl, tally_snoc, if_pos rfl]
  · have hother : _bucket_key REDIS_KEY_PREFIX lower key b ≠
        _bucket_key REDIS_KEY_PREFIX lower key (self._current_bucket now) := fun heq => hb (bucket_key_inj heq)
    rw [Counted, hget, if_neg hother, tally_snoc, if_neg (Ne.symm hb)]
    exact h b

/-- A call in Redis is let through only if the window's buckets hold no more than the limit. -/
theorem sum_le_of_redis {r : Redis} {times : List Rat} {now : Rat} (hnow : 0 ≤ now)
    (h : Kept REDIS_KEY_PREFIX lower self key r times)
    (hpassed : (self._is_limited_redis REDIS_KEY_PREFIX lower key now r).1 = false) :
    (((self.buckets now).map (self.tally (times ++ [now]))).sum : Int) ≤ self.limit := by
  have hkept := kept_snoc hself hnow h
  have htotal : (((self._is_limited_redis REDIS_KEY_PREFIX lower key now r).2.mget now
      ((self.buckets now).map (_bucket_key REDIS_KEY_PREFIX lower key))).filterMap id).sum =
      ((self.buckets now).map (self.tally (times ++ [now]))).sum := by
    rw [Redis.mget, List.map_map]
    refine Rolling.sum_filterMap_id ?_
    intro b hb
    refine (hkept b).read ?_
    -- the oldest bucket of the window has a bucket and the window left after the current one began
    have hfirst := ((mem_buckets hself).mp hb).1
    have hend := lt_bucket_end hself hnow
    have hle : (self._current_bucket now + 1) * self.bucket_size ≤ (b + 1) * self.bucket_size + self.window := by
      rw [← hself.window, ← Int.add_mul]
      exact Int.mul_le_mul_of_nonneg_right (by omega) (Int.le_of_lt hself.size)
    exact hend.trans_le (by exact_mod_cast hle)
  have hle : ¬ self.limit < _ := of_decide_eq_false hpassed
  rw [← htotal]
  exact Int.not_lt.mp hle

end

/-- The store of the key holds at least the number of the calls, in every bucket that no call has dropped. -/
def Held (self : RateLimiter) (key : Str) (memory : Memory) (times : List Rat) : Prop :=
  ∀ b, (∀ x ∈ times, self._current_bucket x - self.num_buckets ≤ b) →
    self.tally times b ≤ (((memory.get? key).getD .empty).get? b).getD 0

section
variable {self : RateLimiter} {key : Str}

theorem held_nil (memory : Memory) : Held self key memory [] := fun _ _ => Nat.zero_le _

/-- What the key's store holds after a call. -/
theorem memory_get? (memory : Memory) (now : Rat) (b : Int) :
    ((((self._is_limited_memory key now memory).2.get? key).getD .empty).get? b) =
      if b < self._current_bucket now - self.num_buckets then none
      else if b = self._current_bucket now then
        some ((((memory.get? key).getD .empty).get? (self._current_bucket now)).getD 0 + 1)
      else ((memory.get? key).getD .empty).get? b := by
  rw [RateLimiter._is_limited_memory, Dict.get?_set_self, Option.getD_some, Dict.get?_filter, Dict.get?_set]
  by_cases hold : b < self._current_bucket now - self.num_buckets
  · rw [if_pos hold]
    cases (if b = self._current_bucket now then _ else _ : Option Nat) with
    | none => rfl
    | some n => exact Option.filter_some_neg (by simp [hold])
  · rw [if_neg hold]
    cases (if b = self._current_bucket now then _ else _ : Option Nat) with
    | none => rfl
    | some n => exact Option.filter_some_pos (by simp [hold])

theorem held_snoc {memory : Memory} {times : List Rat} (now : Rat) (h : Held self key memory times) :
    Held self key (self._is_limited_memory key now memory).2 (times ++ [now]) := by
  intro b hb
  have hnow := hb now (List.mem_append_right _ (List.mem_singleton_self now))
  have hbefore := h b (fun x hx => hb x (List.mem_append_left _ hx))
  rw [memory_get?, if_neg (Int.not_lt.mpr hnow), tally_snoc]
  by_cases hcurrent : b = self._current_bucket now
  · subst hcurrent
    rw [if_pos rfl, if_pos rfl, Option.getD_some]
    exact Nat.add_le_add_right hbefore 1
  · rw [if_neg hcurrent, if_neg (Ne.symm hcurrent)]
    exact hbefore

/-- A call in memory is let through only if the window's buckets hold no more than the limit. -/
theorem sum_le_of_memory (hself : self.Regular) {memory : Memory} {times : List Rat} {now : Rat}
    (htimes : ∀ x ∈ times, 0 ≤ x ∧ x ≤ now) (h : Held self key memory times)
    (hpassed : (self._is_limited_memory key now memory).1 = false) :
    (((self.buckets now).map (self.tally (times ++ [now]))).sum : Int) ≤ self.limit := by
  have hheld := held_snoc now h
  have htotal : ((self.buckets now).map (self.tally (times ++ [now]))).sum ≤
      ((((self._is_limited_memory key now memory).2.get? key).getD .empty).items.map Prod.snd).sum := by
    refine Nat.le_trans (List.sum_le_sum ?_) (Dict.sum_get?_le _ (nodup_buckets self now))
    intro b hb
    have hfirst := ((mem_buckets hself).mp hb).1
    refine hheld b ?_
    intro x hx
    rcases List.mem_append.mp hx with hx | hx
    · have hle := bucket_mono hself (htimes x hx).1 (htimes x hx).2
      omega
    · rw [List.mem_singleton.mp hx]
      exact hfirst
  have hle : ¬ self.limit < _ := of_decide_eq_false hpassed
  rw [RateLimiter._is_limited_memory, Dict.get?_set_self, Option.getD_some] at htotal
  omega

end

/-! ## Every window -/

section
variable {REDIS_KEY_PREFIX : Str} {lower : Str → Str} {self : RateLimiter} {key : Str} {answers : Bool} {s : Stores}

/-- The answer of every call of a run, with its time. -/
def RateLimiter.run (self : RateLimiter) (REDIS_KEY_PREFIX : Str) (lower : Str → Str) (key : Str) (answers : Bool)
    (s : Stores) (times : List Rat) : List (Rat × Bool) :=
  (Rolling.calls (self.is_limited REDIS_KEY_PREFIX lower key answers) s times).calls

theorem is_limited_of_redis (henabled : self.enabled = true) {r : Redis} (hr : s.redis = some r) (now : Rat) :
    self.is_limited REDIS_KEY_PREFIX lower key true now s =
      ((self._is_limited_redis REDIS_KEY_PREFIX lower key now r).1,
        { s with redis := some (self._is_limited_redis REDIS_KEY_PREFIX lower key now r).2 }) := by
  simp only [RateLimiter.is_limited, henabled, hr, if_true]

theorem is_limited_of_memory (henabled : self.enabled = true) (h : s.redis = none ∨ answers = false) (now : Rat) :
    self.is_limited REDIS_KEY_PREFIX lower key answers now s =
      ((self._is_limited_memory key now s.memory).1,
        { s with memory := (self._is_limited_memory key now s.memory).2 }) := by
  rcases h with hnone | hraises
  · simp only [RateLimiter.is_limited, henabled, hnone, if_true]
  · simp only [RateLimiter.is_limited, henabled, hraises, if_true]
    cases s.redis <;> rfl

theorem past_snoc {times : List Rat} {now : Rat} (hnow : 0 ≤ now) (hpast : ∀ x ∈ times, 0 ≤ x ∧ x ≤ now) :
    ∀ x ∈ times ++ [now], 0 ≤ x ∧ x ≤ now := by
  intro x hx
  rcases List.mem_append.mp hx with hx | hx
  · exact hpast x hx
  · rw [List.mem_singleton.mp hx]
    exact ⟨hnow, le_refl now⟩

variable (hself : self.Regular) (henabled : self.enabled = true) {times : List Rat} (hpos : ∀ t ∈ times, 0 ≤ t)
  (hsorted : times.Pairwise (· ≤ ·))
include hself henabled hpos hsorted

/-- Through Redis, from a Redis without buckets of the key. -/
theorem bounded_redis {r : Redis} (hr : s.redis = some r)
    (hfresh : ∀ b, r.get? (_bucket_key REDIS_KEY_PREFIX lower key b) = none) (a : Rat) :
    (Rolling.passed (self.window : Rat) a (self.run REDIS_KEY_PREFIX lower key true s times)).length ≤
      self.limit.toNat := by
  refine (Rolling.bounded (fun t => 0 ≤ t) (fun s times => (∀ x ∈ times, 0 ≤ x) ∧
    ∃ r, s.redis = some r ∧ Kept REDIS_KEY_PREFIX lower self key r times) ?_ ?_ hpos hsorted).2 a
  · rintro s times now ⟨htimes, r, hr, hkept⟩ hnow hbefore
    have hall := past_snoc hnow fun x hx => ⟨htimes x hx, hbefore x hx⟩
    rw [is_limited_of_redis henabled hr]
    refine ⟨⟨fun x hx => (hall x hx).1, _, rfl, kept_snoc hself hnow hkept⟩, ?_⟩
    intro hpassed
    have hsum := sum_le_of_redis hself hnow hkept hpassed
    have hrecent := recent_le_sum hself hall hnow
    omega
  · exact ⟨fun x hx => absurd hx List.not_mem_nil, r, hr, fun b => .inl ⟨hfresh b, rfl⟩⟩

/-- Through memory, whatever is in it at first. -/
theorem bounded_memory (h : s.redis = none ∨ answers = false) (a : Rat) :
    (Rolling.passed (self.window : Rat) a (self.run REDIS_KEY_PREFIX lower key answers s times)).length ≤
      self.limit.toNat := by
  refine (Rolling.bounded (fun t => 0 ≤ t) (fun s times => (∀ x ∈ times, 0 ≤ x) ∧
    (s.redis = none ∨ answers = false) ∧ Held self key s.memory times) ?_ ?_ hpos hsorted).2 a
  · rintro s times now ⟨htimes, h, hheld⟩ hnow hbefore
    have hpast : ∀ x ∈ times, 0 ≤ x ∧ x ≤ now := fun x hx => ⟨htimes x hx, hbefore x hx⟩
    have hall := past_snoc hnow hpast
    rw [is_limited_of_memory henabled h]
    refine ⟨⟨fun x hx => (hall x hx).1, h, held_snoc now hheld⟩, ?_⟩
    intro hpassed
    have hsum := sum_le_of_memory hself hpast hheld hpassed
    have hrecent := recent_le_sum hself hall hnow
    omega
  · exact ⟨fun x hx => absurd hx List.not_mem_nil, h, held_nil _⟩

end

/-- Whatever the limit, bucket size and window, a multiple of the bucket size, and whenever the calls are made, all
    through Redis or all through memory: no more than `limit` of them are let through in any window. -/
theorem is_limited_bounded (REDIS_KEY_PREFIX : Str) (lower : Str → Str) (key : Str) {limit window bucket_size : Int}
    (hlimit : 0 < limit) (hsize : 0 < bucket_size) (hdvd : bucket_size ∣ window) (answers : Bool) (s : Stores)
    (hfresh : ∀ r ∈ s.redis, ∀ b, r.get? (_bucket_key REDIS_KEY_PREFIX lower key b) = none)
    {times : List Rat} (hpos : ∀ t ∈ times, 0 ≤ t) (hsorted : times.Pairwise (· ≤ ·)) (a : Rat) :
    ((Rolling.passed (window : Rat) a ((RateLimiter.init limit window bucket_size true).run REDIS_KEY_PREFIX lower key
      answers s times)).length : Int) ≤ limit := by
  by_cases hwindow : 0 ≤ window
  · have hself : (RateLimiter.init limit window bucket_size true).Regular := regular_init hsize hwindow hdvd
    have hle : (Rolling.passed (window : Rat) a ((RateLimiter.init limit window bucket_size true).run REDIS_KEY_PREFIX
        lower key answers s times)).length ≤ limit.toNat := by
      cases hr : s.redis with
      | none => exact bounded_memory hself rfl hpos hsorted (.inl hr) a
      | some r =>
        cases answers with
        | false => exact bounded_memory hself rfl hpos hsorted (.inr rfl) a
        | true => exact bounded_redis hself rfl hpos hsorted hr (hfresh r hr) a
    omega
  · -- no time is in a window of negative length
    have hnone : Rolling.passed (window : Rat) a ((RateLimiter.init limit window bucket_size true).run REDIS_KEY_PREFIX
        lower key answers s times) = [] := by
      refine List.filter_eq_nil_iff.mpr ?_
      intro c _ hc
      have hneg : (window : Rat) < 0 := Int.cast_lt_zero.mpr (Int.not_le.mp hwindow)
      simp only [Bool.and_eq_true, decide_eq_true_eq] at hc
      linarith [hc.2.1, hc.2.2]
    rw [hnone]
    exact Int.le_of_lt hlimit

/-- Two calls in two minutes, counted in Redis by the minute: of four calls the last two are limited. -/
theorem is_limited_bounded_example :
    (((RateLimiter.init 2 120 60 true).run (py "open-webui") id (py "a") true ⟨some .empty, .empty⟩
      [10, 61 / 2, 70, 150]).map Prod.snd = [false, false, true, true]) ∧
    ((Rolling.passed ((120 : Int) : Rat) 10 ((RateLimiter.init 2 120 60 true).run (py "open-webui") id (py "a") true
      ⟨some .empty, .empty⟩ [10, 61 / 2, 70, 150])).length : Int) ≤ 2 :=
  ⟨by decide +kernel, is_limited_bounded (py "open-webui") id (py "a") (by decide) (by decide) (by decide) true _
    (by rintro r ⟨⟩ b; rfl) (by decide +kernel) (by decide +kernel) 10⟩

end RateLimit
end MaterialOpenWebui
