import MaterialOpenWebui.Lib.AllSome
import MaterialOpenWebui.Lib.Compaction
import MaterialOpenWebui.Socket.RedisDict

/-!
# `Socket.Ydoc` — the updates of collaborative documents (`YdocManager`, `backend/open_webui/socket/utils.py`)

The updates of a document are kept in a list, in Redis or in memory, and applied in order by who opens it. When the list has
become long, its older half is replaced by a snapshot. In Redis this is a read, and a later transaction that deletes the list
and writes what was read: what has been appended in between is deleted with it (`appended_while_compacting`).

Every command is a step of its own, of any call on any instance. The key of a document in Redis is told by its id, with every
colon replaced.
-/

namespace MaterialOpenWebui
namespace Ydoc
open Py
open Compaction (merged compact Lossless)

/-! ## The library -/

abbrev Bytes := List UInt8

/-- `pycrdt`: documents, and the updates that are applied to them and made of them. -/
structure Library where
  Doc : Type
  new : Doc
  apply_update : Doc → Bytes → Doc
  get_update : Doc → Bytes

/-- `list(update)`. -/
def listOf (update : Bytes) : Val := .list (update.map fun b => .int b.toNat)

def encode (codec : JSONCodec) (update : Bytes) : Str := codec.dumps (listOf update)

/-- One element of what `bytes` takes. -/
def byteOf : Val → Option UInt8
  | .int n => if 0 ≤ n ∧ n < 256 then some (UInt8.ofNat n.toNat) else none
  | _ => none

/-- `bytes(JSONCodec.loads(raw))`, for a list. -/
def decode (codec : JSONCodec) (raw : Str) : Option Bytes :=
  match codec.loads raw with
  | some (.list vs) => vs.mapM byteOf
  | _ => none

/-- `document_id.replace(':', '_')`. -/
def key (document_id : Str) : Str := document_id.map fun c => if c = ofChar ':' then ofChar '_' else c

def COMPACTION_THRESHOLD : Nat := 500

/-! ## In Redis -/

/-- The next command of a call of `append_to_updates`. -/
inductive Op where
  | rpush (update : Bytes)
  | llen
  | lrange
  /-- the transaction of `_compact_updates_redis`, which has read the list -/
  | rewrite (all_updates : List Str)

/-- What a command appends. -/
def Op.pushed : Op → List Bytes
  | .rpush update => [update]
  | _ => []

structure Call where
  document_id : Str
  op : Op

structure State where
  /-- the lists, by `key` -/
  lists : Dict Str (List Str)
  calls : Dict Nat Call
  /-- every update that has been appended, by `key` -/
  appended : Dict Str (List Bytes)

def State.list (s : State) (k : Str) : List Str := (s.lists.get? k).getD []

def State.history (s : State) (k : Str) : List Bytes := (s.appended.get? k).getD []

section Redis
variable (codec : JSONCodec) (lib : Library)

/-- The older half of what was read is applied to a new document. -/
def snapshot (all_updates : List Str) : Option Str :=
  ((all_updates.take (all_updates.length / 2)).mapM (decode codec)).map fun us =>
    encode codec (lib.get_update (us.foldl lib.apply_update lib.new))

/-- Redis executes a command on a list, and the call goes on to its next one, if there is one. -/
def exec (list : List Str) : Op → List Str × Option Op
  | .rpush update => (list ++ [encode codec update], some .llen)
  | .llen => (list, if COMPACTION_THRESHOLD ≤ list.length then some .lrange else none)
  | .lrange => (list, if list.length ≤ 1 then none else some (.rewrite list))
  | .rewrite all_updates =>
    match snapshot codec lib all_updates with
    | some raw => (raw :: all_updates.drop (all_updates.length / 2), none)
    | none => (list, none)

def get_updates (s : State) (document_id : Str) : Option (List Bytes) := (s.list (key document_id)).mapM (decode codec)

inductive Action where
  /-- a call of `append_to_updates` -/
  | append (n : Nat) (document_id : Str) (update : Bytes)
  /-- the next command of a call -/
  | go (n : Nat)

/-- A command of a call. -/
def command (s : State) (n : Nat) (c : Call) : State where
  lists := s.lists.set (key c.document_id) (exec codec lib (s.list (key c.document_id)) c.op).1
  calls := s.calls.put n ((exec codec lib (s.list (key c.document_id)) c.op).2.map fun op => { c with op := op })
  appended := s.appended.set (key c.document_id) (s.history (key c.document_id) ++ c.op.pushed)

/-- Calls are numbered: one with an old number is none. -/
def step (s : State) : Action → State
  | .append n document_id update => if n ∈ s.calls then s else { s with calls := s.calls.set n ⟨document_id, .rpush update⟩ }
  | .go n =>
    match s.calls.get? n with
    | some c => command codec lib s n c
    | none => s

end Redis

/-! ## In memory -/

/-- `self._updates`, by `key`. -/
abbrev Updates := Dict Str (List Bytes)

section Memory
variable (lib : Library)

def _compact_updates_memory (updates : Updates) (k : Str) : Updates :=
  let us := (updates.get? k).getD []
  if us.length ≤ 1 then updates else updates.set k (compact lib.apply_update lib.get_update lib.new (us.length / 2) us)

def append_to_updates (updates : Updates) (document_id : Str) (update : Bytes) : Updates :=
  let k := key document_id
  let us := (updates.get? k).getD [] ++ [update]
  let updates := updates.set k us
  if COMPACTION_THRESHOLD ≤ us.length then _compact_updates_memory lib updates k else updates

def get_updates_memory (updates : Updates) (document_id : Str) : List Bytes := (updates.get? (key document_id)).getD []

end Memory

/-! ## Reading what was written -/

/-- The codec reads again the lists of bytes that it wrote. -/
def ReadsBytes (codec : JSONCodec) : Prop := ∀ update, codec.loads (codec.dumps (listOf update)) = some (listOf update)

section Encoding
variable {codec : JSONCodec} (hcodec : ReadsBytes codec)
include hcodec

theorem decode_encode_update (update : Bytes) : decode codec (encode codec update) = some update := by
  have hbyte : ∀ b : UInt8, byteOf (.int b.toNat) = some b := by
    intro b
    have hlt := b.toNat_lt
    rw [byteOf, if_pos ⟨by omega, by omega⟩, Int.toNat_natCast, UInt8.ofNat_toNat]
  rw [decode, encode, hcodec]
  exact AllSome.mapM_map_eq fun b _ => hbyte b

theorem decode_encodes (us : List Bytes) : (us.map (encode codec)).mapM (decode codec) = some us :=
  AllSome.mapM_map_eq fun u _ => decode_encode_update hcodec u

/-- What is written in the place of what was read. -/
theorem exec_rewrite (lib : Library) (list : List Str) (us : List Bytes) :
    exec codec lib list (.rewrite (us.map (encode codec))) =
      ((compact lib.apply_update lib.get_update lib.new (us.length / 2) us).map (encode codec), none) := by
  have hsnapshot : snapshot codec lib (us.map (encode codec)) =
      some (encode codec (lib.get_update (merged lib.apply_update lib.new (us.take (us.length / 2))))) := by
    rw [snapshot, List.length_map, ← List.map_take, decode_encodes hcodec]
    rfl
  rw [exec, hsnapshot, List.length_map, ← List.map_drop]
  rfl

end Encoding

/-! ## What is kept -/

section Kept
variable (codec : JSONCodec) (lib : Library)

/-- The updates that are got make, of a new document, what all that have been appended make. -/
def Kept (s : State) : Prop :=
  ∀ document_id, ∃ us, get_updates codec s document_id = some us ∧
    merged lib.apply_update lib.new us = merged lib.apply_update lib.new (s.history (key document_id))

/-- The lists, and what the calls have read of them, are written updates. -/
structure Encoded (s : State) : Prop where
  lists : ∀ k, ∃ us : List Bytes, s.list k = us.map (encode codec)
  read : ∀ n document_id all_updates, s.calls.get? n = some ⟨document_id, .rewrite all_updates⟩ →
    ∃ us : List Bytes, all_updates = us.map (encode codec)

/-- What a compaction has read makes the document that the stored list makes when it is written back. -/
def Current (s : State) : Action → Prop
  | .go n => ∀ document_id all_updates us vs, s.calls.get? n = some ⟨document_id, .rewrite all_updates⟩ →
      all_updates.mapM (decode codec) = some us → get_updates codec s document_id = some vs →
      merged lib.apply_update lib.new us = merged lib.apply_update lib.new vs
  | _ => True

variable {codec} {lib} {s : State}

theorem list_command (n : Nat) (c : Call) (k : Str) : (command codec lib s n c).list k =
    if k = key c.document_id then (exec codec lib (s.list (key c.document_id)) c.op).1 else s.list k := by
  rw [State.list, command, Dict.get?_set]
  split <;> rfl

theorem history_command (n : Nat) (c : Call) (k : Str) : (command codec lib s n c).history k =
    if k = key c.document_id then s.history (key c.document_id) ++ c.op.pushed else s.history k := by
  rw [State.history, command, Dict.get?_set]
  split <;> rfl

theorem kept_iff (hcodec : ReadsBytes codec) {us : Str → List Bytes} (h : ∀ k, s.list k = (us k).map (encode codec)) :
    Kept codec lib s ↔ ∀ document_id, merged lib.apply_update lib.new (us (key document_id)) =
      merged lib.apply_update lib.new (s.history (key document_id)) := by
  have hget : ∀ document_id, get_updates codec s document_id = some (us (key document_id)) := by
    intro document_id
    rw [get_updates, h, decode_encodes hcodec]
  refine forall_congr' fun document_id => ?_
  rw [hget]
  constructor
  · rintro ⟨_, heq, hmerged⟩
    cases heq
    exact hmerged
  · exact fun hmerged => ⟨_, rfl, hmerged⟩

/-- A command leaves written updates. -/
theorem encoded_exec (hcodec : ReadsBytes codec) {us : List Bytes} {op : Op}
    (hread : ∀ all_updates, op = .rewrite all_updates → ∃ ws : List Bytes, all_updates = ws.map (encode codec)) :
    ∃ vs : List Bytes, (exec codec lib (us.map (encode codec)) op).1 = vs.map (encode codec) := by
  cases op with
  | rpush update => exact ⟨us ++ [update], by rw [List.map_append]; rfl⟩
  | llen => exact ⟨us, rfl⟩
  | lrange => exact ⟨us, rfl⟩
  | rewrite all_updates =>
    obtain ⟨ws, rfl⟩ := hread all_updates rfl
    exact ⟨_, congrArg Prod.fst (exec_rewrite hcodec lib _ ws)⟩

/-- Only a read is followed by a rewriting, of what was read. -/
theorem read_of_exec {list all_updates : List Str} {op : Op} (h : (exec codec lib list op).2 = some (.rewrite all_updates)) :
    all_updates = list := by
  cases op with
  | rpush update => cases h
  | llen =>
    simp only [exec] at h
    split at h <;> cases h
  | lrange =>
    simp only [exec] at h
    split at h <;> cases h
    rfl
  | rewrite all_updates' =>
    simp only [exec] at h
    split at h <;> cases h

theorem encoded_command (hcodec : ReadsBytes codec) (hs : Encoded codec s) {n : Nat} {c : Call}
    (hget : s.calls.get? n = some c) : Encoded codec (command codec lib s n c) := by
  obtain ⟨us, hus⟩ := hs.lists (key c.document_id)
  refine ⟨fun k => ?_, fun m document_id all_updates hm => ?_⟩
  · rw [list_command]
    split
    · rw [hus]
      exact encoded_exec hcodec fun all_updates hop => hs.read n c.document_id all_updates (by rw [hget, ← hop])
    · exact hs.lists k
  · have hm : (s.calls.put n _).get? m = _ := hm
    rw [Dict.get?_put] at hm
    split at hm
    · obtain ⟨op, hop, heq⟩ := Option.map_eq_some_iff.mp hm
      cases heq
      exact ⟨us, (read_of_exec hop).trans hus⟩
    · exact hs.read m document_id all_updates hm

/-- A command keeps the updates exactly when its list makes what the list before and what it appends make. -/
theorem kept_command_iff (hcodec : ReadsBytes codec) (hs : Encoded codec s) (hkept : Kept codec lib s) {n : Nat} {c : Call}
    {us vs : List Bytes} (hus : s.list (key c.document_id) = us.map (encode codec))
    (hvs : (exec codec lib (us.map (encode codec)) c.op).1 = vs.map (encode codec)) :
    Kept codec lib (command codec lib s n c) ↔
      merged lib.apply_update lib.new vs = merged lib.apply_update lib.new (us ++ c.op.pushed) := by
  choose before hbefore using hs.lists
  have hafter : ∀ k, (command codec lib s n c).list k =
      (if k = key c.document_id then vs else before k).map (encode codec) := by
    intro k
    rw [list_command]
    split
    · rw [hus, hvs]
    · exact hbefore k
  have hold := (kept_iff hcodec hbefore).mp hkept
  have hhistory : merged lib.apply_update lib.new (s.history (key c.document_id) ++ c.op.pushed) =
      merged lib.apply_update lib.new (us ++ c.op.pushed) := by
    -- a list that is written as another is that list: the codec reads both back
    have hsame : before (key c.document_id) = us := by
      have hwritten := (hbefore (key c.document_id)).symm.trans hus
      have hread := decode_encodes hcodec (before (key c.document_id))
      rw [hwritten, decode_encodes hcodec] at hread
      exact (Option.some.inj hread).symm
    refine (Compaction.merged_append_congr ?_ _).symm
    rw [← hsame]
    exact hold c.document_id
  rw [kept_iff hcodec hafter]
  constructor
  · intro h
    have hc := h c.document_id
    rw [if_pos rfl, history_command, if_pos rfl, hhistory] at hc
    exact hc
  · intro h document_id
    rw [history_command]
    by_cases hk : key document_id = key c.document_id
    · rw [if_pos hk, if_pos hk, hhistory, h]
    · rw [if_neg hk, if_neg hk]
      exact hold document_id

theorem encoded_step (lib : Library) (hcodec : ReadsBytes codec) (s : State) (a : Action) (hs : Encoded codec s) :
    Encoded codec (step codec lib s a) := by
  cases a with
  | append n document_id update =>
    rw [step]
    split
    · exact hs
    · refine ⟨hs.lists, fun m document_id' all_updates hm => ?_⟩
      have hm : (s.calls.set n _).get? m = _ := hm
      rw [Dict.get?_set] at hm
      split at hm
      · cases hm
      · exact hs.read m document_id' all_updates hm
  | go n =>
    rw [step]
    split
    · rename_i hget
      exact encoded_command hcodec hs hget
    · exact hs

/-- **One step** keeps the updates exactly when it is not the rewriting of what is out of date. -/
theorem kept_step_iff (hcodec : ReadsBytes codec) (hlib : Lossless lib.apply_update lib.get_update lib.new)
    (hs : Encoded codec s) (hkept : Kept codec lib s) (a : Action) :
    Kept codec lib (step codec lib s a) ↔ Current codec lib s a := by
  cases a with
  | append n document_id update =>
    rw [step]
    split <;> exact iff_of_true hkept trivial
  | go n =>
    rw [step]
    cases hget : s.calls.get? n with
    | none =>
      refine iff_of_true hkept fun _ _ _ _ hcall => ?_
      rw [hget] at hcall
      cases hcall
    | some c =>
      obtain ⟨document_id, op⟩ := c
      obtain ⟨us, hus⟩ := hs.lists (key document_id)
      -- a call that does not rewrite has nothing that could be out of date
      have hother : (∀ all_updates, op ≠ .rewrite all_updates) → Current codec lib s (.go n) := by
        intro hop document_id' all_updates _ _ hcall
        rw [hget] at hcall
        cases hcall
        exact absurd rfl (hop all_updates)
      cases op with
      | rpush update =>
        have hpush : (exec codec lib (us.map (encode codec)) (.rpush update)).1 =
          (us ++ [update]).map (encode codec) := by
          rw [List.map_append]
          rfl
        exact iff_of_true ((kept_command_iff hcodec hs hkept hus hpush).mpr rfl) (hother nofun)
      | llen =>
        refine iff_of_true ((kept_command_iff hcodec hs hkept hus rfl).mpr ?_) (hother nofun)
        exact congrArg _ (List.append_nil us).symm
      | lrange =>
        refine iff_of_true ((kept_command_iff hcodec hs hkept hus rfl).mpr ?_) (hother nofun)
        exact congrArg _ (List.append_nil us).symm
      | rewrite all_updates =>
        obtain ⟨ws, rfl⟩ := hs.read n document_id all_updates hget
        have hwritten := congrArg Prod.fst (exec_rewrite hcodec lib (us.map (encode codec)) ws)
        rw [kept_command_iff hcodec hs hkept hus hwritten, Compaction.merged_compact hlib]
        show merged _ _ ws = merged _ _ (us ++ []) ↔ _
        rw [List.append_nil]
        constructor
        · intro h document_id' all_updates us' vs' hcall hus' hvs'
          rw [hget] at hcall
          cases hcall
          rw [decode_encodes hcodec] at hus'
          rw [get_updates, hus, decode_encodes hcodec] at hvs'
          cases hus'
          cases hvs'
          exact h
        · intro h
          refine h document_id _ ws us hget (decode_encodes hcodec ws) ?_
          rw [get_updates, hus, decode_encodes hcodec]

/-- A list that is what was read is not out of date. -/
theorem current_of_unchanged {n : Nat} (h : ∀ document_id all_updates,
    s.calls.get? n = some ⟨document_id, .rewrite all_updates⟩ → all_updates = s.list (key document_id)) :
    Current codec lib s (.go n) := by
  intro document_id all_updates us vs hget hus hvs
  rw [h document_id all_updates hget] at hus
  rw [get_updates, hus] at hvs
  cases hvs
  rfl

end Kept

/-! ## In memory nothing comes between -/

section Memory
variable {lib : Library} (hlib : Lossless lib.apply_update lib.get_update lib.new)
include hlib

theorem merged_compact_memory (updates : Updates) (k k' : Str) :
    merged lib.apply_update lib.new (((_compact_updates_memory lib updates k).get? k').getD []) =
      merged lib.apply_update lib.new ((updates.get? k').getD []) := by
  rw [_compact_updates_memory]
  split
  · rfl
  · rw [Dict.get?_set]
    split
    · rename_i heq
      rw [heq, Option.getD_some, Compaction.merged_compact hlib]
    · rfl

theorem merged_append_memory (updates : Updates) (document_id : Str) (update : Bytes) (k : Str) :
    merged lib.apply_update lib.new (((append_to_updates lib updates document_id update).get? k).getD []) =
      merged lib.apply_update lib.new ((updates.get? k).getD [] ++ if key document_id = k then [update] else []) := by
  have hset : ((updates.set (key document_id) ((updates.get? (key document_id)).getD [] ++ [update])).get? k).getD [] =
      (updates.get? k).getD [] ++ if key document_id = k then [update] else [] := by
    rw [Dict.get?_set]
    by_cases hk : k = key document_id
    · rw [if_pos hk, if_pos hk.symm, hk, Option.getD_some]
    · rw [if_neg hk, if_neg fun heq => hk heq.symm, List.append_nil]
  rw [append_to_updates]
  split
  · rw [merged_compact_memory hlib, hset]
  · rw [hset]

end Memory

/-- What is appended to the documents of a key. -/
def appendedTo (k : Str) (appends : List (Str × Bytes)) : List Bytes :=
  (appends.filter fun a => key a.1 = k).map Prod.snd

theorem merged_appends_memory {lib : Library} (hlib : Lossless lib.apply_update lib.get_update lib.new) (updates : Updates)
    (appends : List (Str × Bytes)) (k : Str) :
    merged lib.apply_update lib.new
        (((appends.foldl (fun updates a => append_to_updates lib updates a.1 a.2) updates).get? k).getD []) =
      merged lib.apply_update lib.new ((updates.get? k).getD [] ++ appendedTo k appends) := by
  induction appends generalizing updates with
  | nil => exact congrArg _ (List.append_nil _).symm
  | cons a appends ih =>
    have hhead := merged_append_memory hlib updates a.1 a.2 k
    have hcons : appendedTo k (a :: appends) = (if key a.1 = k then [a.2] else []) ++ appendedTo k appends := by
      rw [appendedTo, List.filter_cons]
      by_cases hk : key a.1 = k <;> simp [hk, appendedTo]
    rw [List.foldl_cons, ih, Compaction.merged_append_congr hhead, List.append_assoc, ← hcons]

/-! ## Runs -/

/-- Documents whose updates are stored, and no call. -/
def start (codec : JSONCodec) (docs : Dict Str (List Bytes)) : State :=
  ⟨docs.map fun _ us => us.map (encode codec), Dict.empty, docs⟩

theorem list_start (codec : JSONCodec) (docs : Dict Str (List Bytes)) (k : Str) :
    (start codec docs).list k = ((start codec docs).history k).map (encode codec) := by
  rw [State.list, State.history, start, Dict.get?_map]
  cases docs.get? k <;> rfl

theorem encoded_start (codec : JSONCodec) (docs : Dict Str (List Bytes)) : Encoded codec (start codec docs) :=
  ⟨fun k => ⟨_, list_start codec docs k⟩, fun _ _ _ hget => by cases hget⟩

/-- **No update is lost.** In Redis: at every point of a run of any calls, command by command, if and only if nothing that a
compaction writes back is out of date. In memory: always. -/
theorem keeps_every_update (codec : JSONCodec) (lib : Library) (hcodec : ReadsBytes codec)
    (hlib : Lossless lib.apply_update lib.get_update lib.new) (docs : Dict Str (List Bytes)) :
    (∀ as, (∀ n, Kept codec lib (Run.run (step codec lib) (start codec docs) (as.take n))) ↔
      Run.AllSteps (Current codec lib) (step codec lib) (start codec docs) as) ∧
    ∀ appends document_id, merged lib.apply_update lib.new (get_updates_memory
        (appends.foldl (fun updates a => append_to_updates lib updates a.1 a.2) docs) document_id) =
      merged lib.apply_update lib.new ((docs.get? (key document_id)).getD [] ++ appendedTo (key document_id) appends) := by
  refine ⟨fun as => ?_, fun appends document_id => merged_appends_memory hlib docs appends (key document_id)⟩
  have hkept : Kept codec lib (start codec docs) := (kept_iff hcodec (list_start codec docs)).mpr fun _ => rfl
  exact Run.holds_iff (encoded_step lib hcodec) (fun _ a hs hk => kept_step_iff hcodec hlib hs hk a)
    (encoded_start codec docs) hkept

/-! ## One call at a time -/

/-- What the calls have read is what is stored. -/
def Fresh (s : State) : Prop :=
  ∀ n document_id all_updates, s.calls.get? n = some ⟨document_id, .rewrite all_updates⟩ →
    all_updates = s.list (key document_id)

/-- A call begins when no other is under way. -/
def OneAtATime (s : State) : Action → Prop
  | .append _ _ _ => ∀ m, m ∉ s.calls
  | .go n => ∀ m ∈ s.calls, m = n

theorem fresh_step (codec : JSONCodec) (lib : Library) (s : State) (a : Action) (h : Fresh s) (hone : OneAtATime s a) :
    Fresh (step codec lib s a) := by
  cases a with
  | append n document_id update =>
    rw [step, if_neg (hone n)]
    intro m document_id' all_updates hm
    have hm : (s.calls.set n _).get? m = _ := hm
    rw [Dict.get?_set] at hm
    split at hm
    · cases hm
    · exact h m document_id' all_updates hm
  | go n =>
    rw [step]
    cases hget : s.calls.get? n with
    | none => exact h
    | some c =>
      intro m document_id all_updates hm
      have hm : (s.calls.put n _).get? m = _ := hm
      rw [Dict.get?_put] at hm
      split at hm
      · obtain ⟨op, hop, heq⟩ := Option.map_eq_some_iff.mp hm
        cases heq
        have hread := read_of_exec hop
        rw [list_command, if_pos rfl]
        -- the command that has read the list has not changed it
        cases hc : c.op with
        | lrange => exact hread
        | rpush update => rw [hc] at hop; cases hop
        | llen =>
          rw [hc] at hop
          simp only [exec] at hop
          split at hop <;> cases hop
        | rewrite all_updates' =>
          rw [hc] at hop
          simp only [exec] at hop
          split at hop <;> cases hop
      · rename_i hne
        exact absurd (hone m (Dict.mem_of_get? hm)) hne

/-- **Calls one after the other** lose nothing. -/
theorem current_of_oneAtATime (codec : JSONCodec) (lib : Library) {s : State} {as : List Action} (h : Fresh s)
    (hone : Run.AllSteps OneAtATime (step codec lib) s as) : Run.AllSteps (Current codec lib) (step codec lib) s as := by
  have hboth : ∀ s a, Fresh s → (OneAtATime s a ↔ OneAtATime s a ∧ Current codec lib s a) := by
    intro s a hs
    refine ⟨fun hone => ⟨hone, ?_⟩, And.left⟩
    cases a with
    | append n document_id update => trivial
    | go n => exact current_of_unchanged fun document_id all_updates hget => hs n document_id all_updates hget
  exact ((Run.allSteps_congr (fresh_step codec lib) hboth h).mp hone).mono fun _ _ => And.right

/-! ## Two calls -/

/-- Documents that are sets of bytes: an update adds its bytes. -/
def addBytes (d : UInt8 → Bool) (update : Bytes) : UInt8 → Bool := fun b => d b || decide (b ∈ update)

def bytesOf (d : UInt8 → Bool) : Bytes := ((List.range 256).map UInt8.ofNat).filter d

def noBytes : UInt8 → Bool := fun _ => false

def byteSets : Library := ⟨UInt8 → Bool, noBytes, addBytes, bytesOf⟩

theorem merged_addBytes (d : UInt8 → Bool) (us : List Bytes) (b : UInt8) :
    merged addBytes d us b = (d b || us.any fun u => decide (b ∈ u)) := by
  induction us generalizing d with
  | nil => exact (Bool.or_false _).symm
  | cons u us ih =>
    show merged addBytes (addBytes d u) us b = _
    rw [ih, List.any_cons, ← Bool.or_assoc]
    rfl

theorem lossless_byteSets : Lossless byteSets.apply_update byteSets.get_update byteSets.new := by
  show Lossless addBytes bytesOf noBytes
  intro d us
  funext b
  have hall : b ∈ (List.range 256).map UInt8.ofNat :=
    List.mem_map.mpr ⟨b.toNat, List.mem_range.mpr b.toNat_lt, UInt8.ofNat_toNat⟩
  have hmem : decide (b ∈ bytesOf (merged addBytes noBytes us)) = merged addBytes noBytes us b := by
    rw [Bool.eq_iff_iff, decide_eq_true_eq]
    exact List.mem_filter.trans (and_iff_right hall)
  show (d b || decide (b ∈ bytesOf (merged addBytes noBytes us))) = _
  rw [hmem, merged_addBytes, merged_addBytes]
  rfl

theorem readsBytes_stdlib (fl : Floats) : ReadsBytes (stdlib_json fl) := by
  intro update
  refine loads_dumps (.list fun v hv => ?_)
  obtain ⟨b, -, rfl⟩ := List.mem_map.mp hv
  exact .int _

/-- One call, to its end. -/
def oneCall : List Action := [.append 0 (py "note") [1], .go 0, .go 0]

theorem keeps_every_update_oneCall :
    Kept (stdlib_json wholeFloats) byteSets
      (Run.run (step (stdlib_json wholeFloats) byteSets) (start (stdlib_json wholeFloats) Dict.empty) oneCall) := by
  refine ((keeps_every_update (stdlib_json wholeFloats) byteSets (readsBytes_stdlib wholeFloats) lossless_byteSets
    Dict.empty).1 oneCall).mpr (current_of_oneAtATime _ _ ?_ ?_) 3
  · intro n document_id all_updates hget
    cases hget
  · refine ⟨fun m => List.not_mem_nil, fun m hm => ?_, fun m hm => ?_, trivial⟩
    · exact List.mem_singleton.mp hm
    · exact List.mem_singleton.mp hm

/-- The state of two calls on one document. -/
def twoCalls (list : List Str) (history : List Bytes) (op op' : Op) : State :=
  ⟨Dict.ofList [(py "note", list)], Dict.ofList [(0, ⟨py "note", op⟩), (1, ⟨py "note", op'⟩)],
    Dict.ofList [(py "note", history)]⟩

section TwoCalls
variable (codec : JSONCodec) (lib : Library) (list : List Str) (history : List Bytes)

theorem step_rpush (update : Bytes) (op' : Op) : step codec lib (twoCalls list history (.rpush update) op') (.go 0) =
    twoCalls (list ++ [encode codec update]) (history ++ [update]) .llen op' := rfl

theorem step_rpush_second (update : Bytes) (op : Op) : step codec lib (twoCalls list history op (.rpush update)) (.go 1) =
    twoCalls (list ++ [encode codec update]) (history ++ [update]) op .llen := rfl

theorem step_llen (op' : Op) (h : COMPACTION_THRESHOLD ≤ list.length) :
    step codec lib (twoCalls list history .llen op') (.go 0) = twoCalls list history .lrange op' := by
  have hcommand : step codec lib (twoCalls list history .llen op') (.go 0) =
      ⟨Dict.ofList [(py "note", list)],
        (twoCalls list history .llen op').calls.put 0 ((exec codec lib list .llen).2.map fun op => ⟨py "note", op⟩),
        Dict.ofList [(py "note", history ++ [])]⟩ := rfl
  rw [hcommand, exec, if_pos h, List.append_nil]
  rfl

theorem step_lrange (op' : Op) (h : 1 < list.length) :
    step codec lib (twoCalls list history .lrange op') (.go 0) = twoCalls list history (.rewrite list) op' := by
  have hcommand : step codec lib (twoCalls list history .lrange op') (.go 0) =
      ⟨Dict.ofList [(py "note", list)],
        (twoCalls list history .lrange op').calls.put 0 ((exec codec lib list .lrange).2.map fun op => ⟨py "note", op⟩),
        Dict.ofList [(py "note", history ++ [])]⟩ := rfl
  rw [hcommand, exec, if_neg (Nat.not_le.mpr h), List.append_nil]
  rfl

theorem step_rewrite {all_updates list' : List Str} (h : exec codec lib list (.rewrite all_updates) = (list', none)) :
    step codec lib (twoCalls list history (.rewrite all_updates) .llen) (.go 0) =
      ⟨Dict.ofList [(py "note", list')], Dict.ofList [(1, ⟨py "note", .llen⟩)], Dict.ofList [(py "note", history)]⟩ := by
  have hcommand : step codec lib (twoCalls list history (.rewrite all_updates) .llen) (.go 0) =
      ⟨Dict.ofList [(py "note", (exec codec lib list (.rewrite all_updates)).1)],
        (twoCalls list history (.rewrite all_updates) .llen).calls.put 0
          ((exec codec lib list (.rewrite all_updates)).2.map fun op => ⟨py "note", op⟩),
        Dict.ofList [(py "note", history ++ [])]⟩ := rfl
  rw [hcommand, h, List.append_nil]
  rfl

theorem step_last (h : list.length < COMPACTION_THRESHOLD) :
    step codec lib ⟨Dict.ofList [(py "note", list)], Dict.ofList [(1, ⟨py "note", .llen⟩)],
      Dict.ofList [(py "note", history)]⟩
      (.go 1) = ⟨Dict.ofList [(py "note", list)], Dict.empty, Dict.ofList [(py "note", history)]⟩ := by
  have hcommand : step codec lib
      ⟨Dict.ofList [(py "note", list)], Dict.ofList [(1, ⟨py "note", .llen⟩)], Dict.ofList [(py "note", history)]⟩ (.go 1) =
      ⟨Dict.ofList [(py "note", list)],
        (Dict.ofList [(1, (⟨py "note", .llen⟩ : Call))]).put 1 ((exec codec lib list .llen).2.map fun op => ⟨py "note", op⟩),
        Dict.ofList [(py "note", history ++ [])]⟩ := rfl
  rw [hcommand, exec, if_neg (Nat.not_le.mpr h), List.append_nil]
  rfl

end TwoCalls

/-- The first call has read the list when the second appends, and writes what it has read. -/
def compacting : List Action :=
  [.append 0 (py "note") [2], .append 1 (py "note") [3], .go 0, .go 0, .go 0, .go 1, .go 0, .go 1]

/-- From a document with one update less than are compacted. -/
theorem run_compacting (codec : JSONCodec) (lib : Library) (hcodec : ReadsBytes codec) {us : List Bytes}
    (hus : us.length + 1 = COMPACTION_THRESHOLD) :
    Run.run (step codec lib) (start codec (Dict.ofList [(py "note", us)])) compacting =
      ⟨Dict.ofList [(py "note", (compact lib.apply_update lib.get_update lib.new 250 (us ++ [[2]])).map (encode codec))],
        Dict.empty, Dict.ofList [(py "note", us ++ [[2]] ++ [[3]])]⟩ := by
  have hwritten : us.map (encode codec) ++ [encode codec [2]] = (us ++ [[2]]).map (encode codec) := by
    rw [List.map_append]
    rfl
  have hcount : (us ++ [[2]]).length = COMPACTION_THRESHOLD := by
    rw [List.length_append, List.length_singleton, hus]
  have hlength : (us.map (encode codec) ++ [encode codec [2]]).length = COMPACTION_THRESHOLD := by
    rw [hwritten, List.length_map, hcount]
  have hexec := exec_rewrite hcodec lib (us.map (encode codec) ++ [encode codec [2]] ++ [encode codec [3]]) (us ++ [[2]])
  have hhalf : (us ++ [[2]]).length / 2 = 250 := by rw [hcount]; rfl
  rw [← hwritten, hhalf] at hexec
  have hlong : 1 < (us.map (encode codec) ++ [encode codec [2]]).length := by rw [hlength]; decide
  have hshort : ((compact lib.apply_update lib.get_update lib.new 250 (us ++ [[2]])).map (encode codec)).length <
      COMPACTION_THRESHOLD := by
    rw [List.length_map, compact, List.length_cons, List.length_drop, hcount]
    decide
  have hcalled : step codec lib (step codec lib (start codec (Dict.ofList [(py "note", us)])) (.append 0 (py "note") [2]))
      (.append 1 (py "note") [3]) = twoCalls (us.map (encode codec)) us (.rpush [2]) (.rpush [3]) := rfl
  rw [compacting, Run.run_cons, Run.run_cons, hcalled]
  simp only [Run.run_cons, Run.run_nil]
  rw [step_rpush, step_llen _ _ _ _ _ hlength.ge, step_lrange _ _ _ _ _ hlong, step_rpush_second,
    step_rewrite _ _ _ _ hexec, step_last _ _ _ _ hshort]

/-- The update of the second call is lost. -/
theorem appended_while_compacting :
    ¬∀ (codec : JSONCodec) (lib : Library), ReadsBytes codec → Lossless lib.apply_update lib.get_update lib.new →
      ∀ (docs : Dict Str (List Bytes)) (as : List Action),
        (∀ n, n ∉ (Run.run (step codec lib) (start codec docs) as).calls) →
        Kept codec lib (Run.run (step codec lib) (start codec docs) as) := by
  intro h
  have hcodec := readsBytes_stdlib wholeFloats
  have hstored : (List.replicate 499 ([1] : Bytes)).length + 1 = COMPACTION_THRESHOLD := by rw [List.length_replicate]; rfl
  have hnone : ((List.replicate 499 ([1] : Bytes)).any fun u => decide (3 ∈ u)) = false := by rw [List.any_replicate]; rfl
  generalize List.replicate 499 ([1] : Bytes) = us at hstored hnone
  have hkept := h (stdlib_json wholeFloats) byteSets hcodec lossless_byteSets (Dict.ofList [(py "note", us)]) compacting
  rw [run_compacting _ _ hcodec hstored] at hkept
  obtain ⟨vs, hvs, hmerged⟩ := hkept (fun n => List.not_mem_nil) (py "note")
  have hread : get_updates (stdlib_json wholeFloats)
      ⟨Dict.ofList [(py "note", (compact byteSets.apply_update byteSets.get_update byteSets.new 250 (us ++ [[2]])).map
        (encode (stdlib_json wholeFloats)))], Dict.empty, Dict.ofList [(py "note", us ++ [[2]] ++ [[3]])]⟩ (py "note") =
      some (compact byteSets.apply_update byteSets.get_update byteSets.new 250 (us ++ [[2]])) :=
    decode_encodes hcodec _
  rw [hread, Option.some_inj] at hvs
  subst hvs
  rw [Compaction.merged_compact lossless_byteSets] at hmerged
  have hthree : merged addBytes noBytes (us ++ [[2]]) 3 = merged addBytes noBytes (us ++ [[2]] ++ [[3]]) 3 :=
    congrFun hmerged 3
  rw [merged_addBytes, merged_addBytes, List.any_append, List.any_append, List.any_append, hnone] at hthree
  exact absurd hthree (by decide)

end Ydoc
end MaterialOpenWebui
