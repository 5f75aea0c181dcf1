import JitIndex.Proofs.Index.View
import JitIndex.Session.Handles

/-!
# A session seen from outside its memory

A `Scene` is the view of an index together with the pins on it and whether it
still has its writer. The gate counts the readers of an epoch, and a scene
knows them one by one; `Scene.Orderly` is the invariant that the two agree.
It is also where the order of epochs ends: a writer that goes away leaves
nothing linked, and nothing parked in the code list but orphans.

A session moves from scene to scene by the moves of its writer, by pins that
come and go, and by the writer and the index going away (`Scene.Move`). Every
command is a path of these (`Session.Leads`), with the books as its trace.
-/

namespace JitIndex

open SkipList (Layout Entry Laid ids)

/-- A view of an index, with the handles that matter to it. -/
structure Scene where
  view : View
  /-- The pins in the order they were taken, with a gap for each that is gone. -/
  pins : List (Option Gate.Pin)
  writer : Bool

namespace View

/-- The view after the reader count of an epoch was changed. -/
def setReaders (v : View) (e : Epoch) (n : Nat) : View := { v with gate := v.gate.setReaders e n }

/-- The view after the writer left the code list to its readers. -/
def abandon (v : View) : View :=
  { v with
    code :=
      { v.code with
        retired := []
        sealed := []
        orphans := v.code.retired.reverse ++ (v.code.sealed.reverse ++ v.code.orphans) }
    sealedEpoch := none }

def drain (v : View) : View :=
  { v with code := { v.code with orphans := [], gone := ids v.code.orphans ++ v.code.gone } }

end View

namespace Scene

/-- How many live pins there are in an epoch. -/
def pinned (sc : Scene) (e : Epoch) : Nat := sc.pins.countP fun p => p.any fun p => p.epoch == e

/-- One move of a session, and its events. -/
inductive Move : Scene → List Event → Scene → Prop
  | write {sc : Scene} {es : List Event} {v : View} (hwriter : sc.writer = true)
      (hmove : sc.view.Move es v) : Move sc es { sc with view := v }
  | pin {sc : Scene} {version : UInt64}
      (hversion : version.toNat = 2 ^ 34 * sc.view.gate.generation) :
      Move sc []
        { sc with
          view :=
            sc.view.setReaders sc.view.gate.epoch (sc.view.gate.readers sc.view.gate.epoch + 1)
          pins := sc.pins ++ [some ⟨sc.view.gate.epoch, version⟩] }
  | unpin {sc : Scene} {n : Nat} {p : Gate.Pin} (hpin : sc.pins[n]? = some (some p)) :
      Move sc []
        { sc with
          view := sc.view.setReaders p.epoch (sc.view.gate.readers p.epoch - 1)
          pins := sc.pins.set n none }
  | leave {sc : Scene} (hwriter : sc.writer = true) (hcode : sc.view.code.linked = [])
      (hdepth : sc.view.depth.linked = []) :
      Move sc [] { sc with view := sc.view.abandon, writer := false }
  | dispose {sc : Scene} (hwriter : sc.writer = false) (hpins : ∀ p ∈ sc.pins, p = none) :
      Move sc (Index.disposal none sc.view.code.orphans) { sc with view := sc.view.drain }

inductive Moves : Scene → List Event → Scene → Prop
  | refl (sc : Scene) : Moves sc [] sc
  | tail {a b c : Scene} {es fs : List Event} : Moves a es b → Move b fs c → Moves a (es ++ fs) c

theorem Moves.single {a b : Scene} {es : List Event} (h : Move a es b) : Moves a es b :=
  .tail (.refl a) h

theorem Moves.trans {a b c : Scene} {es fs : List Event} (h : Moves a es b) (h' : Moves b fs c) :
    Moves a (es ++ fs) c := by
  induction h' with
  | refl => rwa [List.append_nil]
  | tail _ hmove ih =>
      rw [← List.append_assoc]
      exact .tail ih hmove

/-- The moves of a writer that is there. -/
theorem Moves.write {sc : Scene} {es : List Event} {v : View} (hwriter : sc.writer = true)
    (h : sc.view.Moves es v) : Moves sc es { sc with view := v } := by
  obtain ⟨w, pins, writer⟩ := sc
  obtain rfl : writer = true := hwriter
  induction h with
  | refl => exact .refl _
  | tail _ hmove ih => exact .tail ih (.write rfl hmove)

/-! ## Pins and readers -/

/-- The gate counts the live pins. A writer that is there keeps the epochs in order, and one that
is gone has left nothing linked and nothing that waits for an epoch. -/
structure Orderly (sc : Scene) : Prop where
  readers : ∀ e, sc.view.gate.readers e = sc.pinned e
  attended : sc.writer = true → sc.view.Orderly
  left : sc.writer = false → sc.view.code.linked = [] ∧ sc.view.depth.linked = [] ∧
    sc.view.code.retired = [] ∧ sc.view.code.sealed = []

theorem setReaders_orderly {v : View} (h : v.Orderly) {e : Epoch} {n : Nat}
    (hn : e = v.gate.epoch.other → v.gate.readers e = 0 → n = 0) : (v.setReaders e n).Orderly where
  idle hnone := by
    obtain ⟨hcode, hdepth, hreaders⟩ := h.idle hnone
    refine ⟨hcode, hdepth, ?_⟩
    show (if v.gate.epoch.other = e then n else v.gate.readers v.gate.epoch.other) = 0
    split
    · rename_i heq
      exact hn heq.symm (heq ▸ hreaders)
    · exact hreaders
  busy := h.busy

theorem pinned_pos {sc : Scene} {n : Nat} {p : Gate.Pin} (h : sc.pins[n]? = some (some p)) :
    0 < sc.pinned p.epoch :=
  List.countP_pos_iff.mpr ⟨some p, List.mem_of_getElem? h, by simp⟩

theorem pinned_set {sc : Scene} {n : Nat} {p : Gate.Pin} (h : sc.pins[n]? = some (some p))
    (v : View) (e : Epoch) :
    Scene.pinned { sc with view := v, pins := sc.pins.set n none } e =
      if e = p.epoch then sc.pinned e - 1 else sc.pinned e := by
  obtain ⟨hn, hget⟩ := List.getElem?_eq_some_iff.mp h
  unfold pinned
  dsimp only
  rw [List.countP_set hn, hget]
  by_cases he : e = p.epoch
  · subst he
    simp
  · have : (p.epoch == e) = false := by simpa using Ne.symm he
    simp [this, he]

theorem Move.orderly {a b : Scene} {es : List Event} (h : Move a es b) (ho : a.Orderly) :
    b.Orderly := by
  cases h with
  | write hwriter hmove =>
      refine ⟨fun e => ?_, fun _ => hmove.orderly (ho.attended hwriter), fun hgone => ?_⟩
      · rw [(View.Moves.single hmove).readers_eq]
        exact ho.readers e
      · cases hwriter.symm.trans hgone
  | pin hversion =>
      refine ⟨fun e => ?_, fun hwriter => setReaders_orderly (ho.attended hwriter) fun heq => ?_,
        ho.left⟩
      · show (if e = a.view.gate.epoch then _ else a.view.gate.readers e) = List.countP _ (_ ++ _)
        rw [List.countP_append, ho.readers, ho.readers]
        by_cases he : e = a.view.gate.epoch
        · subst he
          simp [pinned]
        · have : (a.view.gate.epoch == e) = false := by simpa using Ne.symm he
          simp [he, this, pinned]
      · exact absurd heq (Epoch.ne_other _)
  | @unpin n p hpin =>
      refine ⟨fun e => ?_, fun hwriter => setReaders_orderly (ho.attended hwriter) ?_, ho.left⟩
      · rw [pinned_set hpin]
        show (if e = p.epoch then _ else a.view.gate.readers e) = _
        rw [ho.readers, ho.readers]
        split
        · rename_i heq
          rw [heq]
        · rfl
      · omega
  | leave hwriter hcode hdepth =>
      exact ⟨ho.readers, fun h => absurd h Bool.false_ne_true, fun _ => ⟨hcode, hdepth, rfl, rfl⟩⟩
  | dispose hwriter hpins =>
      exact ⟨ho.readers, fun h => absurd (hwriter.symm.trans h) Bool.false_ne_true, ho.left⟩

theorem Moves.orderly {a b : Scene} {es : List Event} (h : Moves a es b) (ho : a.Orderly) :
    b.Orderly := by
  induction h with
  | refl => exact ho
  | tail _ hmove ih => exact hmove.orderly ih

/-! ## Pins keep their numbers -/

/-- A pin that is there was there before, unless its number is new. -/
theorem Move.pin_stays {a b : Scene} {es : List Event} (h : Move a es b) :
    a.pins.length ≤ b.pins.length ∧ ∀ {n : Nat} {p : Gate.Pin}, n < a.pins.length →
      b.pins[n]? = some (some p) → a.pins[n]? = some (some p) := by
  cases h with
  | write => exact ⟨Nat.le_refl _, fun _ hp => hp⟩
  | pin =>
      refine ⟨?_, fun hn hp => ?_⟩
      · rw [List.length_append]
        exact Nat.le_add_right ..
      · rwa [List.getElem?_append_left hn] at hp
  | @unpin m =>
      refine ⟨Nat.le_of_eq List.length_set.symm, fun {n p} hn hp => ?_⟩
      rw [List.getElem?_set] at hp
      split at hp
      · rename_i hm
        rw [if_pos (hm ▸ hn)] at hp
        cases hp
      · exact hp
  | leave => exact ⟨Nat.le_refl _, fun _ hp => hp⟩
  | dispose => exact ⟨Nat.le_refl _, fun _ hp => hp⟩

theorem Moves.pin_stays {a b : Scene} {es : List Event} (h : Moves a es b) :
    a.pins.length ≤ b.pins.length ∧ ∀ {n : Nat} {p : Gate.Pin}, n < a.pins.length →
      b.pins[n]? = some (some p) → a.pins[n]? = some (some p) := by
  induction h with
  | refl => exact ⟨Nat.le_refl _, fun _ hp => hp⟩
  | tail _ hmove ih =>
      obtain ⟨hle, hback⟩ := hmove.pin_stays
      exact ⟨Nat.le_trans ih.1 hle,
        fun hn hp => ih.2 hn (hback (Nat.lt_of_lt_of_le hn ih.1) hp)⟩

end Scene

namespace Session

open Index (Keeps)

structure Sound (s : Session) (sc : Scene) : Prop where
  index : s.index.Sound sc.view
  pins : sc.pins = s.pins.toList.map (Option.map HeldPin.pin)
  writer : sc.writer = s.writer
  orderly : sc.Orderly

theorem Sound.pin_eq {s : Session} {sc : Scene} (h : Sound s sc) (n : Nat) :
    sc.pins[n]? = s.pins[n]?.map (Option.map HeldPin.pin) := by
  rw [h.pins, List.getElem?_map, Array.getElem?_toList]

theorem Sound.pin_live {s : Session} {sc : Scene} (h : Sound s sc) {n : Nat} {p : HeldPin}
    (hpin : s.pin? n = some p) : sc.pins[n]? = some (some p.pin) := by
  rw [h.pin_eq, Option.join_eq_some_iff.mp hpin]
  rfl

theorem Sound.pin?_of_live {s : Session} {sc : Scene} (h : Sound s sc) {n : Nat} {p : Gate.Pin}
    (hpin : sc.pins[n]? = some (some p)) : ∃ held, s.pin? n = some ⟨p, held⟩ := by
  rw [h.pin_eq, Option.map_eq_some_iff] at hpin
  obtain ⟨q, hq, hmap⟩ := hpin
  obtain ⟨⟨_, held⟩, rfl, rfl⟩ := Option.map_eq_some_iff.mp hmap
  exact ⟨held, Option.join_eq_some_iff.mpr hq⟩

theorem Sound.length_pins {s : Session} {sc : Scene} (h : Sound s sc) :
    sc.pins.length = s.pins.size := by
  rw [h.pins, List.length_map, Array.length_toList]

/-- How many readers there are in an epoch. -/
theorem Sound.readers_eq (h : Sound s sc) (e : Epoch) : sc.view.gate.readers e =
    s.pins.toList.countP fun p => (p.map HeldPin.pin).any fun p => p.epoch == e := by
  rw [h.orderly.readers, Scene.pinned, h.pins, List.countP_map]
  rfl

structure Leads (s : Session) (sc : Scene) (es : List Event) (s' : Session) (sc' : Scene) :
    Prop where
  moves : Scene.Moves sc es sc'
  sound : Sound s' sc'
  books : s'.index.host.books = s.index.host.books ++ es
  code : Keeps .code es s.index.code s'.index.code
  depth : Keeps .depth es s.index.depth s'.index.depth

variable {s s' s'' : Session} {sc sc' sc'' : Scene} {es fs : List Event}

theorem Leads.refl (h : Sound s sc) : Leads s sc [] s sc :=
  ⟨.refl sc, h, (List.append_nil _).symm, .of_core rfl fun _ => rfl, .of_core rfl fun _ => rfl⟩

theorem Leads.trans (h : Leads s sc es s' sc') (h' : Leads s' sc' fs s'' sc'') :
    Leads s sc (es ++ fs) s'' sc'' where
  moves := h.moves.trans h'.moves
  sound := h'.sound
  books := by rw [h'.books, h.books, List.append_assoc]
  code := h.code.trans h'.code
  depth := h.depth.trans h'.depth

theorem Sound.attended (h : Sound s sc) (hwriter : s.writer = true) : sc.view.Orderly :=
  h.orderly.attended (h.writer.trans hwriter)

/-- What a writer does to the index, it does to the session. -/
theorem Leads.write (h : Sound s sc) (hwriter : s.writer = true) {ix : Index} {v : View}
    (hlead : s.index.Leads sc.view es ix v) :
    Leads s sc es { s with index := ix } { sc with view := v } := by
  have hmoves := Scene.Moves.write (h.writer.trans hwriter) hlead.moves
  exact ⟨hmoves, ⟨hlead.sound, h.pins, h.writer, hmoves.orderly h.orderly⟩, hlead.books, hlead.code,
    hlead.depth⟩

end Session

end JitIndex
