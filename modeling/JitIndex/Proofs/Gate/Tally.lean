import JitIndex.Gate.Session
import JitIndex.Proofs.Gate
import Mathlib.Data.List.Count

/-!
# What a gate counts

A `Tally` is kept by somebody who watches a gate from outside: he sees which
commands are given and what is answered, and counts. Whatever the readers and
the writer do, in whatever order, the word of the gate says the same as the
tally (`run_decoded`): its fields never run over into each other. An epoch may
turn while readers are pinned in the one it turns into, and a reader may leave
long after the epoch it was counted in.
-/

namespace JitIndex

open Gate (Fields Packs)

namespace GateSession

/-- What was seen at a gate. -/
structure Tally where
  /-- Whether a mutation began that has not ended. -/
  isOpen : Bool := false
  /-- How often the epoch turned. -/
  turns : Nat := 0
  /-- How many mutations ended. -/
  ended : Nat := 0
  /-- The pins in the order they were taken: the epoch at that moment, and nothing once the pin was
  released. -/
  pins : List (Option Epoch) := []

namespace Tally

variable {t : Tally} {n : Nat} {e : Epoch}

/-- The epoch that so many turns lead to. -/
def epoch (t : Tally) : Epoch := Fin.ofNat 2 t.turns

/-- How many live pins were taken while an epoch was the current one. -/
def live (t : Tally) (e : Epoch) : Nat := t.pins.count (some e)

/-- Another command was answered. -/
def record (t : Tally) : Command → Reply → Tally
  | .beginMutation, .done => { t with isOpen := true }
  | .endMutation, .done => { t with isOpen := false, ended := t.ended + 1 }
  | .pin, .number _ => { t with pins := t.pins ++ [some t.epoch] }
  | .pinMany _, .number n => { t with pins := t.pins ++ List.replicate n (some t.epoch) }
  | .unpin n, .done => { t with pins := t.pins.set n none }
  | .unpinAll, _ => { t with pins := t.pins.map fun _ => none }
  | .turn, _ => { t with turns := t.turns + 1 }
  | _, _ => t

/-- How many of so many readers can pin themselves one after the other. -/
def admitted (t : Tally) (count : Nat) : Nat :=
  if t.isOpen then 0 else min count (65535 - t.live t.epoch)

/-- A whole run was watched. -/
def watch (t : Tally) (history : List (Command × Reply)) : Tally :=
  history.foldl (fun t x => t.record x.1 x.2) t

/-! ## The fields that say the same -/

def fields (t : Tally) : Fields := ⟨t.isOpen, t.epoch, t.live, t.ended % 2 ^ 30⟩

theorem fields_ended (t : Tally) :
    ({ t with isOpen := false, ended := t.ended + 1 } : Tally).fields =
      { t.fields with isOpen := false, generation := (t.fields.generation + 1) % 2 ^ 30 } := by
  have hgen : (t.ended + 1) % 2 ^ 30 = (t.ended % 2 ^ 30 + 1) % 2 ^ 30 := (Nat.mod_add_mod ..).symm
  exact congrArg (Fields.mk false t.epoch t.live) hgen

theorem epoch_turned (t : Tally) :
    ({ t with turns := t.turns + 1 } : Tally).epoch = t.epoch.other := by
  refine Fin.ext ?_
  show (t.turns + 1) % 2 = (2 - t.turns % 2 + 1) % 2
  omega

theorem fields_turned (t : Tally) : ({ t with turns := t.turns + 1 } : Tally).fields =
    { t.fields with epoch := t.fields.epoch.other } := by
  unfold fields
  rw [epoch_turned]
  rfl

theorem fields_taken (t : Tally) : ({ t with pins := t.pins ++ [some t.epoch] } : Tally).fields =
    t.fields.setReaders t.epoch (t.live t.epoch + 1) := by
  refine congrArg (Fields.mk t.isOpen t.epoch · (t.ended % 2 ^ 30)) (funext fun e => ?_)
  show (t.pins ++ [some t.epoch]).count (some e) =
    if e = t.epoch then t.live t.epoch + 1 else t.live e
  rw [List.count_append]
  by_cases he : e = t.epoch
  · rw [if_pos he, he, List.count_singleton_self]
    rfl
  · rw [if_neg he, List.count_singleton, if_neg (by simpa using Ne.symm he)]
    rfl

theorem fields_released (h : t.pins[n]? = some (some e)) :
    ({ t with pins := t.pins.set n none } : Tally).fields =
      t.fields.setReaders e (t.live e - 1) := by
  obtain ⟨hn, hget⟩ := List.getElem?_eq_some_iff.mp h
  refine congrArg (Fields.mk t.isOpen t.epoch · (t.ended % 2 ^ 30)) (funext fun e' => ?_)
  show (t.pins.set n none).count (some e') = if e' = e then t.live e - 1 else t.live e'
  rw [List.count_set hn, hget]
  by_cases he : e' = e
  · simp [he, live]
  · simp [he, Ne.symm he, live]

theorem fields_emptied (t : Tally) : ({ t with pins := t.pins.map fun _ => none } : Tally).fields =
    { t.fields with readers := fun _ => 0 } := by
  refine congrArg (Fields.mk t.isOpen t.epoch · (t.ended % 2 ^ 30)) (funext fun e => ?_)
  refine List.count_eq_zero_of_not_mem fun hmem => ?_
  obtain ⟨_, -, hnone⟩ := List.mem_map.mp hmem
  cases hnone

theorem live_taken (t : Tally) :
    ({ t with pins := t.pins ++ [some t.epoch] } : Tally).live t.epoch = t.live t.epoch + 1 := by
  show (t.pins ++ [some t.epoch]).count (some t.epoch) = _
  rw [List.count_append, List.count_singleton_self]
  rfl

theorem admitted_of_full (h : ¬ (t.isOpen = false ∧ t.live t.epoch < 65535)) (count : Nat) :
    t.admitted count = 0 := by
  unfold admitted
  split
  · rfl
  · next hclosed =>
      have : ¬ t.live t.epoch < 65535 := fun hroom => h ⟨by simpa using hclosed, hroom⟩
      omega

theorem admitted_succ (h : t.isOpen = false ∧ t.live t.epoch < 65535) (count : Nat) :
    t.admitted (count + 1) =
      ({ t with pins := t.pins ++ [some t.epoch] } : Tally).admitted count + 1 := by
  unfold admitted
  rw [show ({ t with pins := t.pins ++ [some t.epoch] } : Tally).epoch = t.epoch from rfl,
    live_taken]
  simp only [h.1, Bool.false_eq_true, if_false]
  omega

theorem live_pos (h : t.pins[n]? = some (some e)) : 0 < t.live e :=
  List.count_pos_iff.mpr (List.mem_of_getElem? h)

end Tally

/-- The commands of a run, each with its answer. -/
def history (s : GateSession) : List Command → List (Command × Reply)
  | [] => []
  | c :: cs => (c, (s.step c).1) :: (s.step c).2.history cs

/-- A session is as it was seen to be. -/
structure Tallied (s : GateSession) (t : Tally) : Prop where
  packs : s.gate.Packs t.fields
  mutating : s.mutating = t.isOpen
  pins : s.pins.toList.map (Option.map (·.epoch)) = t.pins

theorem tallied_initial : Tallied {} {} :=
  ⟨Gate.packs_initial, rfl, rfl⟩

namespace Tallied

variable {s : GateSession} {t : Tally}

theorem pin (h : Tallied s t) {n : Nat} {p : Gate.Pin} (hp : s.pin? n = some p) :
    t.pins[n]? = some (some p.epoch) := by
  have hget : s.pins[n]? = some (some p) := Option.join_eq_some_iff.mp hp
  rw [← h.pins, List.getElem?_map, Array.getElem?_toList, hget]
  rfl

/-! ## One command -/

/-- A reader can pin himself exactly if no mutation is open and the epoch has room. -/
theorem takePin (h : Tallied s t) :
    (s.takePin = (false, s) ∧ ¬ (t.isOpen = false ∧ t.live t.epoch < 65535)) ∨
    (t.isOpen = false ∧ t.live t.epoch < 65535) ∧ s.takePin.1 = true ∧
      s.takePin.2.pins.size = s.pins.size + 1 ∧
      Tallied s.takePin.2 { t with pins := t.pins ++ [some t.epoch] } := by
  unfold GateSession.takePin
  rcases h.packs.pin?_eq with ⟨hnone, hbusy⟩ | ⟨hclosed, g, hpin, hpacks⟩
  · rw [hnone]
    refine Or.inl ⟨rfl, fun ⟨hclosed, hroom⟩ => ?_⟩
    rcases hbusy with hopen | hfull
    · exact Bool.false_ne_true (hclosed.symm.trans hopen)
    · exact Nat.ne_of_lt hroom hfull
  · rw [hpin]
    have hroom : t.live t.epoch + 1 < 2 ^ 16 := by
      simpa [Fields.setReaders, Tally.fields] using hpacks.readers t.epoch
    refine Or.inr ⟨⟨hclosed, by omega⟩, rfl, Array.size_push _, ?_, h.mutating, ?_⟩
    · rw [Tally.fields_taken]
      exact hpacks
    · show (s.pins.push _).toList.map _ = _
      rw [Array.toList_push, List.map_append, h.pins]
      rfl

/-- So many readers come one after the other. Those for whom there is room get in. -/
theorem takePins (h : Tallied s t) (count : Nat) :
    (s.takePins count).pins.size = s.pins.size + t.admitted count ∧ Tallied (s.takePins count)
      { t with pins := t.pins ++ List.replicate (t.admitted count) (some t.epoch) } := by
  induction count generalizing s t with
  | zero => simpa [GateSession.takePins, Tally.admitted] using h
  | succ count ih =>
      unfold GateSession.takePins
      rcases h.takePin with ⟨hfull, hnoroom⟩ | ⟨hroom, -, hsize, htaken⟩
      · rw [hfull, Tally.admitted_of_full hnoroom, ← Tally.admitted_of_full hnoroom]
        exact ih h
      · obtain ⟨hsize', htallied⟩ := ih htaken
        rw [t.admitted_succ hroom]
        refine ⟨by omega, ?_⟩
        rw [List.replicate_succ, ← List.singleton_append, ← List.append_assoc]
        exact htallied

/-- All readers leave, each from the epoch it was counted in. -/
theorem packs_unpinned {g : Gate} {f : Fields} (pins : List (Option Gate.Pin)) (h : g.Packs f)
    (hreaders : ∀ e, f.readers e = (pins.map (Option.map (·.epoch))).count (some e)) :
    (pins.foldl (fun g p => p.elim g g.unpin) g).Packs { f with readers := fun _ => 0 } := by
  induction pins generalizing g f with
  | nil =>
      have hzero : f.readers = fun _ => 0 := funext hreaders
      rw [← hzero]
      exact h
  | cons p pins ih =>
      rw [List.foldl_cons]
      cases p with
      | none => exact ih h fun e => by simpa using hreaders e
      | some p =>
          have hp : f.readers p.epoch =
              (pins.map (Option.map (·.epoch))).count (some p.epoch) + 1 := by
            simpa using hreaders p.epoch
          show (pins.foldl _ (g.unpin p)).Packs
            { f.setReaders p.epoch (f.readers p.epoch - 1) with readers := fun _ => 0 }
          refine ih (h.unpin p (by omega)) fun e => ?_
          show (if e = p.epoch then _ else _) = _
          by_cases he : e = p.epoch
          · rw [if_pos he, he]
            omega
          · rw [if_neg he, hreaders e]
            simp [Ne.symm he]

/-- What was seen of a session stays true if it is told what is answered. -/
theorem step (h : Tallied s t) (c : Command) :
    Tallied (s.step c).2 (t.record c (s.step c).1) := by
  cases c with
  | beginMutation =>
      unfold GateSession.step
      dsimp only
      split
      · exact h
      · next hclosed =>
          rw [h.packs.isOpen_eq, Bool.not_eq_true] at hclosed
          exact ⟨h.packs.beginMutation hclosed, rfl, h.pins⟩
  | endMutation =>
      unfold GateSession.step
      dsimp only
      split
      · next hopen =>
          show Tallied { s with gate := s.gate.endMutation, mutating := false }
            { t with isOpen := false, ended := t.ended + 1 }
          refine ⟨?_, rfl, h.pins⟩
          rw [Tally.fields_ended]
          exact h.packs.endMutation (h.mutating.symm.trans hopen)
      · exact h
  | pin =>
      unfold GateSession.step
      dsimp only
      rcases h.takePin with ⟨hfull, -⟩ | ⟨-, htrue, -, htaken⟩
      · rw [hfull]
        exact h
      · rw [← Prod.eta s.takePin, htrue]
        exact htaken
  | pinMany count =>
      obtain ⟨hsize, htaken⟩ := h.takePins count
      unfold GateSession.step
      dsimp only
      rw [hsize, Nat.add_sub_cancel_left]
      exact htaken
  | isCurrent n =>
      unfold GateSession.step
      dsimp only
      split <;> exact h
  | unpin n =>
      unfold GateSession.step
      dsimp only
      split
      · exact h
      · next p hp =>
          have hlive := h.pin hp
          refine ⟨?_, h.mutating, ?_⟩
          · rw [show (t.record (.unpin n) .done) = { t with pins := t.pins.set n none } from rfl,
              Tally.fields_released hlive]
            exact h.packs.unpin p (Tally.live_pos hlive)
          · show (s.pins.setIfInBounds n none).toList.map _ = t.pins.set n none
            rw [Array.toList_setIfInBounds, List.map_set, h.pins]
            rfl
  | unpinAll =>
      refine ⟨?_, h.mutating, ?_⟩
      · rw [show t.record .unpinAll (s.step .unpinAll).1 =
          { t with pins := t.pins.map fun _ => none } from rfl, Tally.fields_emptied]
        show (s.pins.foldl _ s.gate).Packs _
        rw [← Array.foldl_toList]
        exact packs_unpinned _ h.packs fun e => by rw [h.pins]; rfl
      · show (s.pins.map _).toList.map _ = t.pins.map _
        rw [Array.toList_map, ← h.pins, List.map_map, List.map_map]
        rfl
  | turn =>
      refine ⟨?_, h.mutating, h.pins⟩
      rw [show (t.record .turn (s.step .turn).1) = { t with turns := t.turns + 1 } from rfl,
        Tally.fields_turned]
      exact h.packs.turn

/-! ## Runs -/

theorem run (h : Tallied s t) (cs : List Command) :
    Tallied (s.run cs) (t.watch (s.history cs)) := by
  induction cs generalizing s t with
  | nil => exact h
  | cons c cs ih => exact ih (h.step c)

end Tallied

/-! ## What the word says -/

/-- The word of a gate says what was counted, and that alone decides whether a reader is let in and
whether an epoch has drained. -/
structure Decoded (s : GateSession) (t : Tally) : Prop where
  isOpen : s.gate.isOpen = t.isOpen
  epoch : s.gate.epoch.val = t.turns % 2
  readers : ∀ e, (s.gate.readers e).toNat = t.live e
  generation : s.gate.generation.toNat = t.ended % 2 ^ 30
  /-- Nothing else is in the word. -/
  word : s.gate.word.toNat = t.isOpen.toNat + 2 * (t.turns % 2) + 4 * t.live 0 + 2 ^ 18 * t.live 1 +
    2 ^ 34 * (t.ended % 2 ^ 30)
  hasDrained : ∀ e, s.gate.hasDrained e = true ↔ t.live e = 0
  /-- The live pins are those that were taken and not released, each in its epoch. -/
  live : ∀ n, (s.pin? n).map (·.epoch) = t.pins[n]?.join
  pin : t.isOpen = false → t.live t.epoch < 65535 → (s.step .pin).1 = .number s.pins.size
  pin_refused : ¬ (t.isOpen = false ∧ t.live t.epoch < 65535) →
    s.step .pin = (.failed .invalidated, s)
  pinMany : ∀ count, (s.step (.pinMany count)).1 = .number (t.admitted count)
  begins : (s.step .beginMutation).1 = .done ↔ t.isOpen = false
  ends : (s.step .endMutation).1 = .done ↔ t.isOpen = true
  unpins : ∀ n, (s.step (.unpin n)).1 = .done ↔ t.pins[n]?.join.isSome = true

theorem Tallied.decoded {s : GateSession} {t : Tally} (h : Tallied s t) : Decoded s t := by
  have hlive : ∀ n, (s.pin? n).map (·.epoch) = t.pins[n]?.join := fun n => by
    rw [← h.pins, List.getElem?_map, Array.getElem?_toList, GateSession.pin?]
    rcases s.pins[n]? with _ | _ | p <;> rfl
  exact {
    isOpen := h.packs.isOpen_eq
    epoch := congrArg Fin.val h.packs.epoch_eq
    readers := h.packs.readers_eq
    generation := h.packs.generation_eq
    word := h.packs.word
    hasDrained := fun e => by rw [h.packs.hasDrained_eq, decide_eq_true_iff]; rfl
    live := hlive
    pin := fun hclosed hroom => by
      rcases h.takePin with ⟨-, hnoroom⟩ | ⟨-, htrue, -, -⟩
      · exact absurd ⟨hclosed, hroom⟩ hnoroom
      · unfold GateSession.step
        dsimp only
        rw [← Prod.eta s.takePin, htrue]
    pin_refused := fun hnoroom => by
      rcases h.takePin with ⟨hfull, -⟩ | ⟨hroom, -⟩
      · unfold GateSession.step
        dsimp only
        rw [hfull]
      · exact absurd hroom hnoroom
    pinMany := fun count => by
      show Reply.number ((s.takePins count).pins.size - s.pins.size) = _
      rw [(h.takePins count).1, Nat.add_sub_cancel_left]
    begins := by
      have hopen : s.gate.isOpen = t.isOpen := h.packs.isOpen_eq
      unfold GateSession.step
      cases ht : t.isOpen <;> simp [hopen, ht]
    ends := by
      unfold GateSession.step
      cases ht : t.isOpen <;> simp [h.mutating, ht]
    unpins := fun n => by
      rw [← hlive n]
      unfold GateSession.step
      cases hp : s.pin? n <;> simp [hp] }

/-- After every run, of any length and in any order, the word of the gate decodes to what was
counted. -/
theorem run_decoded (cs : List Command) :
    Decoded (run {} cs) (Tally.watch {} (history {} cs)) :=
  (tallied_initial.run cs).decoded

/-- The epoch turns twice while a reader is pinned in the first one, into a busy epoch at last, and
what he gives back is taken from his own count. -/
example : let s := run {} [.pin, .turn, .pin, .turn, .pin, .unpin 0]
    s.gate.epoch = 0 ∧ s.gate.readers 0 = 1 ∧ s.gate.readers 1 = 1 := by
  decide

end GateSession

end JitIndex
