import Pinx.Analysis.UserPointers
import Pinx.Model.Keyboard

/-!
# Delivery of keys

The ring of the keyboard driver is a queue of at most 255 keys.  `KeyQueue` is that queue: an
interrupt appends the key it translates to, or drops it when 255 are waiting, and a read takes
keys from the front.  No scancode translates to `KEY_NONE`, so a read never takes a key without
delivering it, and every run of the driver gives the answers of the queue
(`keys_delivered`).
-/

namespace Pinx.Analysis

open Pinx.Foundation Pinx.Model

/-! ## The ring as a queue of keys -/

/-- The keys in the ring, oldest first. -/
def contents (r : KeyRing) : List UInt8 :=
  (List.range (r.head - r.tail).val).map fun k => r.buffer (r.tail + Fin.ofNat bufferSize k)

/-- Distances on the ring: taking a key, and pushing one where there is room. -/
theorem ring_distance (head tail : Fin bufferSize) :
    ((head - tail).val = 0 ↔ head = tail) ∧
    (head ≠ tail → (head - tail).val = (head - (tail + 1)).val + 1) ∧
    (head + 1 ≠ tail → (head + 1 - tail).val = (head - tail).val + 1) := by
  have hh := head.isLt
  have ht := tail.isLt
  simp only [bufferSize, ne_eq, Fin.ext_iff, Fin.val_sub, Fin.val_add, Fin.coe_ofNat_eq_mod] at *
  omega

/-- The slot at distance `k` from the tail is the head only when the ring ends there. -/
theorem ring_slot (head tail : Fin bufferSize) :
    tail + Fin.ofNat bufferSize (head - tail).val = head ∧
      ∀ k < (head - tail).val, tail + Fin.ofNat bufferSize k ≠ head := by
  have hh := head.isLt
  have ht := tail.isLt
  simp only [bufferSize, ne_eq, Fin.ext_iff, Fin.val_sub, Fin.val_add, Fin.val_ofNat] at *
  refine ⟨by omega, fun k hk => by omega⟩

theorem hasInput_iff (r : KeyRing) : r.hasInput = true ↔ contents r ≠ [] := by
  simp only [KeyRing.hasInput, contents, decide_eq_true_eq, ne_eq, List.map_eq_nil_iff,
    List.range_eq_nil, (ring_distance r.head r.tail).1]

/-- `input` takes the oldest key. -/
theorem contents_input {r : KeyRing} (h : r.hasInput = true) :
    contents r = r.input.1 :: contents r.input.2 := by
  have hne : r.head ≠ r.tail := by simpa [KeyRing.hasInput] using h
  have hshift : ∀ k, r.tail + 1 + Fin.ofNat bufferSize k =
      r.tail + Fin.ofNat bufferSize (k + 1) := by
    intro k
    simp only [bufferSize, Fin.ext_iff, Fin.val_add, Fin.coe_ofNat_eq_mod, Fin.val_ofNat]
    omega
  have hzero : r.tail + Fin.ofNat bufferSize 0 = r.tail := Fin.add_zero r.tail
  simp only [contents, KeyRing.input, if_neg hne, (ring_distance r.head r.tail).2.1 hne,
    List.range_succ_eq_map, List.map_cons, List.map_map, hshift, hzero]
  rfl

/-- `buffer_push` appends its key, or drops it when the ring is full. -/
theorem contents_bufferPush (r : KeyRing) (key : UInt8) :
    contents (r.bufferPush key) = if r.head + 1 ≠ r.tail then contents r ++ [key] else contents r := by
  unfold KeyRing.bufferPush
  dsimp only
  split
  · rename_i hroom
    obtain ⟨hlast, hbefore⟩ := ring_slot r.head r.tail
    simp only [contents, (ring_distance r.head r.tail).2.2 hroom, List.range_succ, List.map_append,
      List.map_cons, List.map_nil, hlast, Function.update_self]
    congr 1
    refine List.map_congr_left fun k hk => ?_
    exact Function.update_of_ne (hbefore k (List.mem_range.mp hk)) _ _
  · rfl

/-- `sys_event_read` takes the front part of the ring that it has room for. -/
theorem readEvents_eq (max : ℕ) {r : KeyRing} (hnone : keyNone ∉ contents r) :
    (r.readEvents max).1 = (contents r).take max ∧
      contents (r.readEvents max).2 = (contents r).drop max := by
  induction max generalizing r with
  | zero => exact ⟨rfl, rfl⟩
  | succ max ih =>
    by_cases hin : r.hasInput = true
    · have hcons := contents_input hin
      rw [hcons, List.mem_cons, not_or] at hnone
      obtain ⟨hcodes, hrest⟩ := ih hnone.2
      simp only [KeyRing.readEvents, if_pos hin, if_neg (Ne.symm hnone.1)]
      rw [hcodes, hrest, hcons]
      exact ⟨rfl, rfl⟩
    · have hempty : contents r = [] := by
        by_contra hne
        exact hin ((hasInput_iff r).mpr hne)
      simp only [KeyRing.readEvents, if_neg hin]
      rw [hempty]
      exact ⟨rfl, rfl⟩

theorem contents_readEvents (max : ℕ) {r : KeyRing} (hnone : keyNone ∉ contents r) :
    contents r = (r.readEvents max).1 ++ contents (r.readEvents max).2 := by
  obtain ⟨hcodes, hrest⟩ := readEvents_eq max hnone
  rw [hcodes, hrest, List.take_append_drop]

/-- A read with room for an event returns none only if the ring was empty. -/
theorem empty_of_readEvents {max : ℕ} {r : KeyRing} (hnone : keyNone ∉ contents r) (hmax : 0 < max)
    (h : (r.readEvents max).1 = []) : contents r = [] := by
  rw [(readEvents_eq max hnone).1, List.take_eq_nil_iff] at h
  exact h.resolve_left hmax.ne'

theorem length_contents (r : KeyRing) : (contents r).length = (r.head - r.tail).val := by
  simp only [contents, List.length_map, List.length_range]

theorem length_contents_lt (r : KeyRing) : (contents r).length < bufferSize := by
  rw [length_contents]
  exact (r.head - r.tail).isLt

/-- The ring is full with one slot to spare. -/
theorem full_iff (r : KeyRing) : r.head + 1 = r.tail ↔ (contents r).length = bufferSize - 1 := by
  have hh := r.head.isLt
  have ht := r.tail.isLt
  rw [length_contents]
  simp only [bufferSize, Fin.ext_iff, Fin.val_sub, Fin.val_add, Fin.coe_ofNat_eq_mod] at *
  omega

/-! ## Translation -/

theorem applyCapsLock_ne {capsLock c : UInt8} (isAlpha : Bool) (h : c ≠ keyNone) :
    applyCapsLock capsLock c isAlpha ≠ keyNone := by
  unfold applyCapsLock
  split
  · exact h
  split
  · rename_i hlower
    simp only [isAsciiLowercase, decide_eq_true_eq] at hlower
    obtain ⟨hlow, -⟩ := hlower
    intro heq
    have : c = 32 := by grind [keyNone]
    subst this
    exact absurd hlow (by decide)
  split
  · rename_i hupper
    simp only [isAsciiUppercase, decide_eq_true_eq] at hupper
    intro heq
    have : c = 224 := by grind [keyNone]
    subst this
    exact absurd hupper.2 (by decide)
  · exact h

theorem applyCtrl_ne {ctrlHeld c : UInt8} (h : c ≠ keyNone) : applyCtrl ctrlHeld c ≠ keyNone := by
  unfold applyCtrl
  split
  · split
    · rename_i hlower
      simp only [isAsciiLowercase, decide_eq_true_eq] at hlower
      intro heq
      have : c = 96 := by
        have : ascii 'a' = 97 := by decide
        grind [keyNone]
      subst this
      exact absurd hlower.1 (by decide)
    split
    · rename_i hupper
      simp only [isAsciiUppercase, decide_eq_true_eq] at hupper
      intro heq
      have : c = 64 := by
        have : ascii 'A' = 65 := by decide
        grind [keyNone]
      subst this
      exact absurd hupper.1 (by decide)
    · exact h
  · exact h

theorem translateKey_ne (m : Modifiers) (scancode : UInt8) :
    translateKey m scancode ≠ some keyNone := by
  unfold translateKey
  dsimp only
  generalize (if m.shiftHeld ≠ 0 then scancodeToAsciiShift scancode.toNat
    else scancodeToAscii scancode.toNat) = c
  split
  · nofun
  · rename_i hkey
    rw [ne_eq, Option.some.injEq]
    apply applyCtrl_ne
    split
    · exact applyCapsLock_ne true hkey
    split
    · exact applyCapsLock_ne false hkey
    · exact hkey

/-- A branch of the handler that pushes no key. -/
theorem snd_of_ite {c : Prop} [Decidable c] {m : Modifiers} {rest : Modifiers × Option UInt8}
    {key : UInt8} (h : (if c then (m, none) else rest).2 = some key) : rest.2 = some key := by
  split at h
  · cases h
  · exact h

/-- Where the key of an interrupt comes from. -/
theorem translateScancode_key {m : Modifiers} {scancode key : UInt8}
    (h : (translateScancode m scancode).2 = some key) :
    (key = extendedToKey scancode.toNat ∧ key ≠ keyNone) ∨ translateKey m scancode = some key := by
  replace h := snd_of_ite h
  rw [apply_ite Prod.snd] at h
  rcases ite_eq_iff.mp h with ⟨-, h⟩ | ⟨-, h⟩
  · -- behind a prefix
    replace h := snd_of_ite (snd_of_ite h)
    rcases ite_eq_iff.mp h with ⟨hkey, h⟩ | ⟨-, h⟩
    · cases h
      exact Or.inl ⟨rfl, hkey⟩
    · cases h
  · -- the modifier keys, then the releases
    replace h := snd_of_ite (snd_of_ite (snd_of_ite (snd_of_ite h)))
    exact Or.inr (snd_of_ite (snd_of_ite h))

/-- No byte translates to `KEY_NONE`. -/
theorem translateScancode_ne (m : Modifiers) (scancode : UInt8) :
    (translateScancode m scancode).2 ≠ some keyNone := by
  intro h
  rcases translateScancode_key h with ⟨-, hne⟩ | hplain
  · exact hne rfl
  · exact translateKey_ne m scancode hplain

/-! ## The driver and the queue -/

/-- The keyboard as its readers see it: the modifier keys, and the keys waiting, oldest first. -/
structure KeyQueue where
  mods : Modifiers
  pending : List UInt8

/-- An interrupt with the byte it reads, a call of `input`, and one of `sys_event_read` with the
page tables it finds. -/
inductive KeyEvent where
  | irq (scancode : UInt8)
  | input
  | read (m : Machine) (buffer maxEvents : ℕ)

/-- What a call returns to its caller. -/
inductive KeyAnswer where
  | nothing
  | key (code : UInt8)
  | events (codes : List UInt8)
  | refused

/-- Whether `sys_event_read` takes the buffer. -/
def ReadAccepted (m : Machine) (buffer maxEvents : ℕ) : Prop :=
  maxEvents = 0 ∨ maxEvents * pinxEventSize < 2 ^ 64 ∧
    userRangeValid m buffer (maxEvents * pinxEventSize) = .ok true

instance (m : Machine) (buffer maxEvents : ℕ) : Decidable (ReadAccepted m buffer maxEvents) :=
  inferInstanceAs (Decidable (maxEvents = 0 ∨ maxEvents * pinxEventSize < 2 ^ 64 ∧
    userRangeValid m buffer (maxEvents * pinxEventSize) = .ok true))

/-- A key offered to the queue is dropped when 255 keys are waiting. -/
def offer (pending : List UInt8) : Option UInt8 → List UInt8
  | some key => if pending.length = bufferSize - 1 then pending else pending ++ [key]
  | none => pending

/-- One event of the queue: interrupts append, reads take from the front. -/
def KeyQueue.step (q : KeyQueue) : KeyEvent → KeyAnswer × KeyQueue
  | .irq scancode =>
    (.nothing, ⟨(translateScancode q.mods scancode).1,
      offer q.pending (translateScancode q.mods scancode).2⟩)
  | .input => (.key (q.pending.headD keyNone), ⟨q.mods, q.pending.tail⟩)
  | .read m buffer maxEvents =>
    if ReadAccepted m buffer maxEvents then
      (.events (q.pending.take maxEvents), ⟨q.mods, q.pending.drop maxEvents⟩)
    else (.refused, q)

/-- One event of the driver. -/
def keyboardStep (k : Keyboard) : KeyEvent → Except Fault (KeyAnswer × Keyboard)
  | .irq scancode => do return (.nothing, ← k.irq scancode)
  | .input => do
    let (code, k) ← k.input
    return (.key code, k)
  | .read m buffer maxEvents => do
    match ← sysEventRead m buffer maxEvents k with
    | (some codes, k) => return (.events codes, k)
    | (none, k) => return (.refused, k)

/-- The answers of a run of the driver, and its last state. -/
def keyboardRun : Keyboard → List KeyEvent → Except Fault (List KeyAnswer × Keyboard)
  | k, [] => .ok ([], k)
  | k, e :: es => do
    let (answer, k) ← keyboardStep k e
    let (answers, k) ← keyboardRun k es
    return (answer :: answers, k)

/-- The answers of a run of the queue, and its last state. -/
def queueRun : KeyQueue → List KeyEvent → List KeyAnswer × KeyQueue
  | q, [] => ([], q)
  | q, e :: es =>
    let (answer, q) := q.step e
    let (answers, q) := queueRun q es
    (answer :: answers, q)

/-- The driver's state with its ring at `r`: the indices are in range. -/
def ofRing (r : KeyRing) (mods : Modifiers) : Keyboard := ⟨r.buffer, r.head.val, r.tail.val, mods⟩

section Driver

variable (r : KeyRing) (mods : Modifiers)

theorem nextIndex_val (i : Fin bufferSize) : nextIndex i.val = .ok (i + 1).val := by
  have hi := i.isLt
  have hval : (i + 1).val = (i.val + 1) % bufferSize := by
    simp only [bufferSize, Fin.val_add, Fin.coe_ofNat_eq_mod]
  rw [nextIndex, if_pos (by simp only [bufferSize] at hi; omega), hval]

theorem bufferIndex_val (i : Fin bufferSize) : bufferIndex i.val = .ok i := dif_pos i.isLt

theorem ofRing_hasInput : (ofRing r mods).hasInput = r.hasInput := by
  simp only [Keyboard.hasInput, KeyRing.hasInput, ofRing, ne_eq, Fin.val_inj]

theorem ofRing_bufferPush (key : UInt8) :
    (ofRing r mods).bufferPush key = .ok (ofRing (r.bufferPush key) mods) := by
  have hnext : nextIndex (ofRing r mods).kbHead = .ok (r.head + 1).val := nextIndex_val r.head
  have hslot : bufferIndex (ofRing r mods).kbHead = .ok r.head := bufferIndex_val r.head
  unfold Keyboard.bufferPush KeyRing.bufferPush
  rw [hnext, hslot]
  by_cases hroom : r.head + 1 = r.tail
  · have hval : ¬(r.head + 1).val ≠ (ofRing r mods).kbTail := fun h => h (Fin.val_inj.mpr hroom)
    simp only [bind, Except.bind]
    rw [if_neg hval, if_neg (not_not_intro hroom)]
    rfl
  · have hval : (r.head + 1).val ≠ (ofRing r mods).kbTail := fun h => hroom (Fin.val_inj.mp h)
    simp only [bind, Except.bind]
    rw [if_pos hval, if_pos hroom]
    rfl

theorem ofRing_input : (ofRing r mods).input = .ok (r.input.1, ofRing r.input.2 mods) := by
  have hnext : nextIndex (ofRing r mods).kbTail = .ok (r.tail + 1).val := nextIndex_val r.tail
  have hslot : bufferIndex (ofRing r mods).kbTail = .ok r.tail := bufferIndex_val r.tail
  unfold Keyboard.input KeyRing.input
  by_cases hempty : r.head = r.tail
  · have hval : (ofRing r mods).kbHead = (ofRing r mods).kbTail := congrArg Fin.val hempty
    rw [if_pos hval, if_pos hempty]
    rfl
  · have hval : (ofRing r mods).kbHead ≠ (ofRing r mods).kbTail := fun h => hempty (Fin.val_inj.mp h)
    rw [if_neg hval, if_neg hempty, hnext, hslot]
    rfl

theorem ofRing_readEvents (max : ℕ) :
    (ofRing r mods).readEvents max =
      .ok ((r.readEvents max).1, ofRing (r.readEvents max).2 mods) := by
  induction max generalizing r with
  | zero => rfl
  | succ max ih =>
    unfold Keyboard.readEvents KeyRing.readEvents
    rw [ofRing_hasInput, ofRing_input]
    by_cases hin : r.hasInput = true
    · rw [if_pos hin, if_pos hin]
      by_cases hcode : r.input.1 = keyNone
      · simp only [bind, Except.bind, if_pos hcode]
        rfl
      · simp only [bind, Except.bind, if_neg hcode, ih]
        rfl
    · rw [if_neg hin, if_neg hin]

end Driver

/-- The driver holds what the queue holds, and no `KEY_NONE`. -/
structure Shows (k : Keyboard) (q : KeyQueue) : Prop where
  ring : ∃ r, k = ofRing r q.mods ∧ contents r = q.pending
  keys : keyNone ∉ q.pending

variable {k : Keyboard} {q : KeyQueue}

theorem Shows.bounds (h : Shows k q) :
    k.kbHead < bufferSize ∧ k.kbTail < bufferSize ∧ q.pending.length ≤ bufferSize - 1 := by
  obtain ⟨r, rfl, hpending⟩ := h.ring
  rw [← hpending]
  exact ⟨r.head.isLt, r.tail.isLt, Nat.le_sub_one_of_lt (length_contents_lt r)⟩

theorem Shows.irq (h : Shows k q) (scancode : UInt8) :
    ∃ k', k.irq scancode = .ok k' ∧ Shows k' ⟨(translateScancode q.mods scancode).1,
      offer q.pending (translateScancode q.mods scancode).2⟩ := by
  obtain ⟨r, rfl, hpending⟩ := h.ring
  have hirq : (ofRing r q.mods).irq scancode = match (translateScancode q.mods scancode).2 with
    | some key => (ofRing r (translateScancode q.mods scancode).1).bufferPush key
    | none => .ok (ofRing r (translateScancode q.mods scancode).1) := rfl
  have hne := translateScancode_ne q.mods scancode
  rw [hirq]
  generalize translateScancode q.mods scancode = t at hne ⊢
  obtain ⟨mods, key⟩ := t
  cases key with
  | none => exact ⟨_, rfl, ⟨r, rfl, hpending⟩, h.keys⟩
  | some key =>
    refine ⟨_, ofRing_bufferPush r mods key, ⟨_, rfl, ?_⟩, ?_⟩
    · have hfull := full_iff r
      rw [hpending] at hfull
      rw [contents_bufferPush, hpending]
      dsimp only [offer]
      by_cases hroom : r.head + 1 = r.tail
      · rw [if_pos (hfull.mp hroom), if_neg (not_not_intro hroom)]
      · rw [if_neg (mt hfull.mpr hroom), if_pos hroom]
    · dsimp only [offer]
      split
      · exact h.keys
      · rw [List.mem_append, List.mem_singleton, not_or]
        exact ⟨h.keys, fun heq => hne (congrArg some heq.symm)⟩

theorem Shows.input (h : Shows k q) :
    ∃ k', k.input = .ok (q.pending.headD keyNone, k') ∧ Shows k' ⟨q.mods, q.pending.tail⟩ := by
  obtain ⟨r, rfl, hpending⟩ := h.ring
  have hkeys : keyNone ∉ q.pending.tail := fun hmem => h.keys (List.mem_of_mem_tail hmem)
  by_cases hin : r.hasInput = true
  · have hcons := contents_input hin
    rw [hpending] at hcons
    rw [hcons] at hkeys ⊢
    exact ⟨_, ofRing_input r q.mods, ⟨_, rfl, rfl⟩, hkeys⟩
  · have hempty : r.head = r.tail := by simpa [KeyRing.hasInput] using hin
    have hnil : q.pending = [] := by
      rw [← hpending]
      by_contra hne
      exact hin ((hasInput_iff r).mpr hne)
    have hinput : r.input = (keyNone, r) := if_pos hempty
    rw [ofRing_input, hinput, hnil]
    exact ⟨_, rfl, ⟨r, rfl, hpending.trans hnil⟩, List.not_mem_nil⟩

/-- A refused call of `sys_event_read` takes no key. -/
theorem sysEventRead_refused {m : Machine} {buffer maxEvents : ℕ}
    (h : ¬ReadAccepted m buffer maxEvents) (k : Keyboard) :
    sysEventRead m buffer maxEvents k = .ok (none, k) := by
  obtain ⟨hzero, hrange⟩ := not_or.mp h
  unfold sysEventRead
  rw [if_neg hzero]
  by_cases hmul : maxEvents * pinxEventSize ≥ 2 ^ 64
  · rw [if_pos hmul]
    rfl
  · obtain ⟨valid, hvalid, -⟩ := userRangeValid_spec m buffer (maxEvents * pinxEventSize)
    rw [if_neg hmul, hvalid]
    cases valid with
    | false => rfl
    | true => exact absurd ⟨by omega, hvalid⟩ hrange

/-- An accepted one takes as many keys as it has room for, and delivers them. -/
theorem Shows.read (h : Shows k q) {m : Machine} {buffer maxEvents : ℕ}
    (haccepted : ReadAccepted m buffer maxEvents) :
    ∃ k', sysEventRead m buffer maxEvents k = .ok (some (q.pending.take maxEvents), k') ∧
      Shows k' ⟨q.mods, q.pending.drop maxEvents⟩ := by
  unfold sysEventRead
  by_cases hzero : maxEvents = 0
  · subst hzero
    rw [if_pos rfl]
    exact ⟨_, rfl, h⟩
  · obtain ⟨r, rfl, hpending⟩ := h.ring
    have hkeys : keyNone ∉ contents r := hpending ▸ h.keys
    obtain ⟨hcodes, hrest⟩ := readEvents_eq maxEvents hkeys
    obtain ⟨hmul, hvalid⟩ := haccepted.resolve_left hzero
    rw [if_neg hzero, if_neg (not_le_of_gt hmul), hvalid]
    refine ⟨ofRing (r.readEvents maxEvents).2 q.mods, ?_, ⟨_, rfl, hrest.trans (by rw [hpending])⟩,
      fun hmem => h.keys (List.mem_of_mem_drop hmem)⟩
    rw [← hpending, ← hcodes]
    simp only [bind, Except.bind, if_true, ofRing_readEvents]
    rfl

theorem keyboardStep_shows (h : Shows k q) (e : KeyEvent) :
    ∃ k', keyboardStep k e = .ok ((q.step e).1, k') ∧ Shows k' (q.step e).2 := by
  cases e with
  | irq scancode =>
    obtain ⟨k', hrun, hshows⟩ := h.irq scancode
    exact ⟨k', by simp only [keyboardStep, hrun]; rfl, hshows⟩
  | input =>
    obtain ⟨k', hrun, hshows⟩ := h.input
    exact ⟨k', by simp only [keyboardStep, hrun]; rfl, hshows⟩
  | read m buffer maxEvents =>
    by_cases haccepted : ReadAccepted m buffer maxEvents
    · obtain ⟨k', hrun, hshows⟩ := h.read haccepted
      refine ⟨k', ?_, ?_⟩
      · simp only [keyboardStep, hrun, KeyQueue.step, if_pos haccepted]
        rfl
      · simp only [KeyQueue.step, if_pos haccepted]
        exact hshows
    · refine ⟨k, ?_, ?_⟩
      · simp only [keyboardStep, sysEventRead_refused haccepted, KeyQueue.step, if_neg haccepted]
        rfl
      · simp only [KeyQueue.step, if_neg haccepted]
        exact h

theorem keyboardRun_shows (h : Shows k q) (es : List KeyEvent) :
    ∃ k', keyboardRun k es = .ok ((queueRun q es).1, k') ∧ Shows k' (queueRun q es).2 := by
  induction es generalizing k q with
  | nil => exact ⟨k, rfl, h⟩
  | cons e es ih =>
    obtain ⟨k₁, hstep, hshows⟩ := keyboardStep_shows h e
    obtain ⟨k₂, hrun, hlast⟩ := ih hshows
    refine ⟨k₂, ?_, hlast⟩
    simp only [keyboardRun, hstep, bind, Except.bind, hrun]
    rfl

/-! ## What the readers get -/

/-- The keys in an answer; `KEY_NONE` says that there is none. -/
def KeyAnswer.keys : KeyAnswer → List UInt8
  | .key code => if code = keyNone then [] else [code]
  | .events codes => codes
  | .nothing => []
  | .refused => []

/-- The key an event adds: one that was translated and found room. -/
def KeyQueue.accepts (q : KeyQueue) : KeyEvent → List UInt8
  | .irq scancode =>
    match (translateScancode q.mods scancode).2 with
    | some key => if q.pending.length = bufferSize - 1 then [] else [key]
    | none => []
  | .input => []
  | .read _ _ _ => []

/-- The keys that the events of a run add. -/
def acceptedKeys : KeyQueue → List KeyEvent → List UInt8
  | _, [] => []
  | q, e :: es => q.accepts e ++ acceptedKeys (q.step e).2 es

theorem step_keys (hkeys : keyNone ∉ q.pending) (e : KeyEvent) :
    (q.step e).1.keys ++ (q.step e).2.pending = q.pending ++ q.accepts e := by
  cases e with
  | irq scancode =>
    simp only [KeyQueue.step, KeyAnswer.keys, KeyQueue.accepts, List.nil_append]
    cases (translateScancode q.mods scancode).2 with
    | none => exact (List.append_nil _).symm
    | some key =>
      dsimp only [offer]
      split
      · exact (List.append_nil _).symm
      · rfl
  | input =>
    simp only [KeyQueue.step, KeyAnswer.keys, KeyQueue.accepts, List.append_nil]
    cases hpending : q.pending with
    | nil => rfl
    | cons code rest =>
      rw [hpending, List.mem_cons, not_or] at hkeys
      rw [List.headD_cons, if_neg (Ne.symm hkeys.1)]
      rfl
  | read m buffer maxEvents =>
    simp only [KeyQueue.step, KeyQueue.accepts, List.append_nil]
    split
    · exact List.take_append_drop maxEvents q.pending
    · rfl

/-- No key is lost or delivered twice. -/
theorem queueRun_keys (h : Shows k q) (es : List KeyEvent) :
    (queueRun q es).1.flatMap KeyAnswer.keys ++ (queueRun q es).2.pending =
      q.pending ++ acceptedKeys q es := by
  induction es generalizing k q with
  | nil => simp [queueRun, acceptedKeys]
  | cons e es ih =>
    obtain ⟨k', -, hshows⟩ := keyboardStep_shows h e
    simp only [queueRun, acceptedKeys, List.flatMap_cons, List.append_assoc]
    rw [ih hshows, ← List.append_assoc, step_keys h.keys, List.append_assoc]

/-- No modifier is held and no key is waiting. -/
def KeyQueue.start : KeyQueue := ⟨⟨0, 0, 0, 0, 0⟩, []⟩

theorem shows_init (k₀ : Keyboard) : Shows k₀.init .start :=
  ⟨⟨⟨k₀.kbBuffer, 0, 0⟩, rfl, rfl⟩, List.not_mem_nil⟩

/-- Every run of the driver after `init`, whatever bytes the interrupts read, gives the answers of
the queue, which drops a translated key exactly when 255 keys are waiting.  The indices stay in
range, no `KEY_NONE` is waiting, the keys delivered and those still waiting are the accepted ones, in
order, and a read delivers as many as there are and as it has room for. -/
theorem keys_delivered (k₀ : Keyboard) (es : List KeyEvent) :
    ∃ answers k q, keyboardRun k₀.init es = .ok (answers, k) ∧
      queueRun .start es = (answers, q) ∧ Shows k q ∧
      k.kbHead < 256 ∧ k.kbTail < 256 ∧ q.pending.length ≤ 255 ∧
      answers.flatMap KeyAnswer.keys ++ q.pending = acceptedKeys .start es ∧
      ∀ m buffer maxEvents, ReadAccepted m buffer maxEvents → ∃ codes k',
        sysEventRead m buffer maxEvents k = .ok (some codes, k') ∧
        codes.length = min maxEvents q.pending.length := by
  have hstart := shows_init k₀
  obtain ⟨k, hrun, hshows⟩ := keyboardRun_shows hstart es
  obtain ⟨hhead, htail, hlen⟩ := hshows.bounds
  refine ⟨_, k, _, hrun, rfl, hshows, hhead, htail, hlen, ?_, ?_⟩
  · rw [queueRun_keys hstart es]
    rfl
  · intro m buffer maxEvents haccepted
    obtain ⟨k', hread, -⟩ := hshows.read haccepted
    exact ⟨_, k', hread, List.length_take⟩

end Pinx.Analysis
