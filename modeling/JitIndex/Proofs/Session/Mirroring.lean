import JitIndex.Proofs.Consistency
import JitIndex.Proofs.Index.Tidying
import Mathlib.Data.List.Forall2

/-!
# Sessions that look the same

Two sessions may differ in what waits to be released, in their epochs, and in
which epoch a reader is counted, and still show the same to whoever looks
something up. `Mirrors` relates such sessions, and every look-up keeps it
(`Mirrors.step`).

The epochs do make one difference: an epoch may be full. So the relation has a
direction. Whoever is counted in the current epoch of the second session is
counted in the current epoch of the first one as well, so a reader for whom
there is room in the first one finds room in the second (`Mirrors.lets_in`).
As long as the first session turns nobody away, both give the same answers
(`Mirrors.answers_eq`).

A session looks the same before and after a collection (`collect_mirrors`).
-/

namespace JitIndex

open SkipList (Layout Entry Laid)

namespace SkipList

universe u

variable {α : Type u} {l l' : SkipList α}

/-- Nothing that is looked up or counted has changed. -/
structure Unedited (l l' : SkipList α) : Prop extends Kept l l' where
  entries : l'.entries = l.entries
  floor : ∀ key, l'.floor? key = l.floor? key
  first : l'.first? = l.first?

theorem Unedited.refl (l : SkipList α) : Unedited l l := ⟨.refl l, rfl, fun _ => rfl, rfl⟩

theorem Unedited.trans {l'' : SkipList α} (h : Unedited l l') (h' : Unedited l' l'') :
    Unedited l l'' where
  toKept := h.toKept.trans h'.toKept
  entries := h'.entries.trans h.entries
  floor key := (h'.floor key).trans (h.floor key)
  first := h'.first.trans h.first

theorem Laid.unedited {y y' : Layout α} (h : Laid l y) (h' : Laid l' y')
    (hlinked : y'.linked = y.linked) (hkept : Kept l l') : Unedited l l' where
  toKept := hkept
  entries := by rw [h.entries_eq, h'.entries_eq, hlinked]
  floor key := by rw [h.floor?_eq, h'.floor?_eq, hlinked]
  first := by rw [h.first?_eq, h'.first?_eq, hlinked]

theorem Kept.entry (h : Kept l l') (id : SlotId) : l'.entry? id = l.entry? id := by
  rw [entry_eq_core, entry_eq_core, h.core]

end SkipList

/-- The commands of readers, with one attempt to take a pin at a time. -/
def Command.Looks : Command → Prop
  | .reader _ (.pinMany _) | .writer _ => False
  | .reader _ _ | .pin _ _ | .unpinAll => True

namespace Session

def answers (s : Session) : List Command → List Reply
  | [] => []
  | c :: cs => (s.step c).1 :: (s.step c).2.answers cs

/-- No reader is turned away. -/
def Admits (s : Session) : List Command → Prop
  | [] => True
  | c :: cs => (∀ n command, c = .reader n command → (s.step c).1 ≠ .failed .invalidated) ∧
    (s.step c).2.Admits cs

/-- A pin, and one that sees the same in another session. If it is counted in the epoch `e'` there,
it is counted in `e` here. -/
structure Counterpart (e e' : Epoch) (p p' : HeldPin) : Prop where
  version : p'.pin.version = p.pin.version
  held : p'.held = p.held
  epoch : p'.pin.epoch = e' → p.pin.epoch = e

theorem Counterpart.hold {e e' : Epoch} {p p' : HeldPin} (h : Counterpart e e' p p')
    (held : Option SlotId) : Counterpart e e' { p with held } { p' with held } :=
  ⟨h.version, rfl, h.epoch⟩

/-- What is looked up in `s'` is as in `s`, and a reader is let in where he would have been. -/
structure Mirrors (s s' : Session) : Prop where
  code : SkipList.Unedited s.index.code s'.index.code
  depth : SkipList.Unedited s.index.depth s'.index.depth
  current : ∀ p, s'.index.isCurrent p = s.index.isCurrent p
  writer : s.writer = true
  writer' : s'.writer = true
  readers : s'.readers = s.readers
  pins : List.Forall₂ (Option.Rel (Counterpart s.index.gate.epoch s'.index.gate.epoch))
    s.pins.toList s'.pins.toList

variable {s s' : Session} {sc sc' : Scene}

/-! ## While there is a writer -/

theorem dropPin_eq (hwriter : s.writer = true) {n : Nat} {p : HeldPin} (hp : s.pin? n = some p) :
    s.dropPin n =
      { s with index := s.index.unpin p.pin, pins := s.pins.setIfInBounds n none } := by
  unfold dropPin
  rw [hp]
  exact settle_eq hwriter

theorem step_pin_eq (s : Session) (n : Nat) (command : PinCommand) : s.step (.pin n command) =
    match s.pin? n with
    | none => (.noSuchHandle, s)
    | some p => s.stepPin n p command := rfl

theorem step_reader_eq (s : Session) (n : Nat) (command : ReaderCommand) :
    s.step (.reader n command) =
      if s.hasReader n then s.stepReader n command else (.noSuchHandle, s) := rfl

/-! ## Pins in the two sessions -/

theorem forall₂_set {α β : Type} {R : α → β → Prop} {as : List α} {bs : List β} {a : α} {b : β}
    (h : List.Forall₂ R as bs) (hab : R a b) (n : Nat) :
    List.Forall₂ R (as.set n a) (bs.set n b) := by
  induction h generalizing n with
  | nil => exact .nil
  | cons hfirst hrest ih =>
      cases n with
      | zero => exact .cons hab hrest
      | succ n => exact .cons hfirst (ih n)

theorem forall₂_countP_le {α β : Type} {R : α → β → Prop} {as : List α} {bs : List β}
    (h : List.Forall₂ R as bs) {p : α → Bool} {q : β → Bool}
    (hpq : ∀ a b, R a b → q b = true → p a = true) : bs.countP q ≤ as.countP p := by
  induction h with
  | nil => exact Nat.le_refl 0
  | @cons a b _ _ hab _ ih =>
      rw [List.countP_cons, List.countP_cons]
      by_cases hb : q b = true
      · rw [if_pos hb, if_pos (hpq a b hab hb)]
        omega
      · rw [if_neg hb]
        omega

/-- The reader behind a pin is counted at the gate, and leaves. -/
theorem Sound.unpin_packs (h : Sound s sc) {n : Nat} {p : HeldPin} (hp : s.pin? n = some p) :
    Gate.Packs (s.index.gate.unpin p.pin)
      (sc.view.gate.setReaders p.pin.epoch (sc.view.gate.readers p.pin.epoch - 1)) := by
  refine h.index.gate.unpin p.pin ?_
  rw [h.orderly.readers]
  exact Scene.pinned_pos (h.pin_live hp)

namespace Mirrors

theorem pin? (h : Mirrors s s') (n : Nat) :
    Option.Rel (Counterpart s.index.gate.epoch s'.index.gate.epoch) (s.pin? n) (s'.pin? n) := by
  have hsize : s.pins.size = s'.pins.size := h.pins.length_eq
  unfold Session.pin?
  by_cases hn : n < s.pins.size
  · have hn' : n < s'.pins.size := hsize ▸ hn
    rw [Array.getElem?_eq_getElem hn, Array.getElem?_eq_getElem hn']
    exact h.pins.get (i := n) hn hn'
  · rw [Array.getElem?_eq_none (by omega), Array.getElem?_eq_none (by omega)]
    exact .none

/-- Where there is room in the first session there is room in the second. -/
theorem lets_in (h : Mirrors s s') (hs : Sound s sc) (hs' : Sound s' sc')
    (hin : s.index.pin?.isSome = true) : s'.index.pin?.isSome = true := by
  rw [Index.pin?_isSome_iff hs.index, hs.readers_eq, ← hs.index.gate.epoch_eq] at hin
  rw [Index.pin?_isSome_iff hs'.index, hs'.readers_eq, ← hs'.index.gate.epoch_eq]
  refine Nat.lt_of_le_of_lt (forall₂_countP_le h.pins ?_) hin
  rintro _ _ (hpair | _) hcounted
  · simp only [Option.map_some, Option.any_some, beq_iff_eq] at hcounted ⊢
    exact hpair.epoch hcounted
  · cases hcounted

/-! ## What readers do -/

/-- A reader pins himself in both sessions. -/
theorem takePin (h : Mirrors s s') (hs : Sound s sc) (hs' : Sound s' sc')
    (hin : s.index.pin?.isSome = true) : ∃ t t', s.takePin = (true, t) ∧ s'.takePin = (true, t') ∧
      Mirrors t t' := by
  have hroom := (Index.pin?_isSome_iff hs.index).mp hin
  have hroom' := (Index.pin?_isSome_iff hs'.index).mp (h.lets_in hs hs' hin)
  obtain ⟨g, htake, hgate⟩ := (takePin_cases hs.index.gate hs.index.closed).resolve_left
    fun hfull => Nat.ne_of_lt hroom hfull.2
  obtain ⟨g', htake', hgate'⟩ := (takePin_cases hs'.index.gate hs'.index.closed).resolve_left
    fun hfull => Nat.ne_of_lt hroom' hfull.2
  have hepoch : g.epoch = s.index.gate.epoch := hgate.epoch_eq.trans hs.index.gate.epoch_eq.symm
  have hepoch' : g'.epoch = s'.index.gate.epoch :=
    hgate'.epoch_eq.trans hs'.index.gate.epoch_eq.symm
  have hsame : ∀ p, ({ s.index with gate := g } : Index).isCurrent p = s.index.isCurrent p :=
    isCurrent_congr hs.index.gate hgate rfl rfl
  have hsame' : ∀ p, ({ s'.index with gate := g' } : Index).isCurrent p = s'.index.isCurrent p :=
    isCurrent_congr hs'.index.gate hgate' rfl rfl
  have hversion : s'.index.gate.version = s.index.gate.version :=
    beq_iff_eq.mp ((h.current ⟨0, s.index.gate.version⟩).trans (beq_self_eq_true _))
  refine ⟨_, _, htake, htake', h.code, h.depth,
    fun p => (hsame' p).trans ((h.current p).trans (hsame p).symm), h.writer, h.writer', h.readers,
    ?_⟩
  show List.Forall₂ (Option.Rel (Counterpart g.epoch g'.epoch)) (s.pins.push _).toList
    (s'.pins.push _).toList
  rw [hepoch, hepoch', Array.toList_push, Array.toList_push]
  refine List.rel_append h.pins (.cons (.some ⟨hversion, rfl, fun _ => ?_⟩) .nil)
  exact hs.index.gate.epoch_eq.symm

theorem addReader (h : Mirrors s s') : Mirrors s.addReader.2 s'.addReader.2 where
  code := h.code
  depth := h.depth
  current := h.current
  writer := h.writer
  writer' := h.writer'
  readers := congrArg (Array.push · true) h.readers
  pins := h.pins

theorem dropReader (h : Mirrors s s') (n : Nat) : Mirrors (s.dropReader n) (s'.dropReader n) := by
  unfold Session.dropReader
  rw [settle_eq (s := { s with readers := s.readers.setIfInBounds n false }) h.writer,
    settle_eq (s := { s' with readers := s'.readers.setIfInBounds n false }) h.writer']
  exact ⟨h.code, h.depth, h.current, h.writer, h.writer',
    congrArg (Array.setIfInBounds · n false) h.readers, h.pins⟩

/-- A pin keeps another region at hand in both sessions. -/
theorem hold (h : Mirrors s s') {n : Nat} {p p' : HeldPin}
    (hpair : Counterpart s.index.gate.epoch s'.index.gate.epoch p p') (held : Option SlotId) :
    Mirrors { s with pins := s.pins.setIfInBounds n (some { p with held }) }
      { s' with pins := s'.pins.setIfInBounds n (some { p' with held }) } := by
  refine ⟨h.code, h.depth, h.current, h.writer, h.writer', h.readers, ?_⟩
  show List.Forall₂ _ (s.pins.setIfInBounds n _).toList (s'.pins.setIfInBounds n _).toList
  rw [Array.toList_setIfInBounds, Array.toList_setIfInBounds]
  exact forall₂_set h.pins (.some (hpair.hold held)) n

/-- The reader behind a pin leaves both sessions. -/
theorem dropPin (h : Mirrors s s') (hs : Sound s sc) (hs' : Sound s' sc') {n : Nat} {p p' : HeldPin}
    (hp : s.pin? n = some p) (hp' : s'.pin? n = some p') :
    Mirrors (s.dropPin n) (s'.dropPin n) := by
  have hgate := hs.unpin_packs hp
  have hgate' := hs'.unpin_packs hp'
  have hepoch := hgate.epoch_eq.trans hs.index.gate.epoch_eq.symm
  have hepoch' := hgate'.epoch_eq.trans hs'.index.gate.epoch_eq.symm
  have hsame : ∀ q, (s.index.unpin p.pin).isCurrent q = s.index.isCurrent q :=
    isCurrent_congr hs.index.gate hgate rfl rfl
  have hsame' : ∀ q, (s'.index.unpin p'.pin).isCurrent q = s'.index.isCurrent q :=
    isCurrent_congr hs'.index.gate hgate' rfl rfl
  rw [dropPin_eq h.writer hp, dropPin_eq h.writer' hp']
  refine ⟨h.code, h.depth, fun q => (hsame' q).trans ((h.current q).trans (hsame q).symm), h.writer,
    h.writer', h.readers, ?_⟩
  show List.Forall₂ (Option.Rel (Counterpart (s.index.gate.unpin p.pin).epoch
    (s'.index.gate.unpin p'.pin).epoch)) (s.pins.setIfInBounds n none).toList
      (s'.pins.setIfInBounds n none).toList
  rw [hepoch, hepoch', Array.toList_setIfInBounds, Array.toList_setIfInBounds]
  exact forall₂_set h.pins .none n

/-- All readers leave both sessions. -/
theorem dropPins (h : Mirrors s s') (hs : Sound s sc) (hs' : Sound s' sc') (hsettled : Settled s sc)
    (hsettled' : Settled s' sc') : Mirrors s.dropPins s'.dropPins := by
  have hcurrent : ∀ p, s'.dropPins.index.isCurrent p = s.dropPins.index.isCurrent p := fun p => by
    have hsame := isCurrent_of_quiet (c := .unpinAll) hs hsettled trivial p
    have hsame' := isCurrent_of_quiet (c := .unpinAll) hs' hsettled' trivial p
    exact hsame'.trans ((h.current p).trans hsame.symm)
  rw [dropPins_eq h.writer, dropPins_eq h.writer'] at hcurrent ⊢
  obtain ⟨-, hcode, hdepth⟩ := foldl_release s.pins.toList s.index
  obtain ⟨-, hcode', hdepth'⟩ := foldl_release s'.pins.toList s'.index
  rw [Array.foldl_toList] at hcode hdepth hcode' hdepth'
  refine ⟨?_, ?_, hcurrent, h.writer, h.writer', h.readers, ?_⟩
  · unfold unpinAll
    rw [hcode, hcode']
    exact h.code
  · unfold unpinAll
    rw [hdepth, hdepth']
    exact h.depth
  · show List.Forall₂ _ (s.pins.map fun _ => none).toList (s'.pins.map fun _ => none).toList
    rw [Array.toList_map, Array.toList_map, List.forall₂_map_left_iff, List.forall₂_map_right_iff]
    exact h.pins.imp fun _ _ _ => .none

/-! ## One look-up -/

/-- A reading that is answered in the first session is answered alike in the second. -/
theorem reading (h : Mirrors s s') (hs : Sound s sc) (hs' : Sound s' sc') {β : Type}
    {look : Index → β} (hlook : ∀ (ix : Index) g, look { ix with gate := g } = look ix)
    (hsame : look s'.index = look s.index) {reply : β → Reply}
    (hin : replyOf (s.index.reading look).1 reply ≠ .failed .invalidated) :
    replyOf (s'.index.reading look).1 reply = replyOf (s.index.reading look).1 reply := by
  rw [Index.reading_eq hs.index look (hlook _)] at hin ⊢
  rw [Index.reading_eq hs'.index look (hlook _), hsame]
  by_cases hsome : s.index.pin?.isSome = true
  · rw [if_pos hsome, if_pos (h.lets_in hs hs' hsome)]
  · rw [if_neg hsome] at hin
    exact absurd rfl hin

theorem stepReader (h : Mirrors s s') (hs : Sound s sc) (hs' : Sound s' sc') (n : Nat)
    {command : ReaderCommand} (hlook : (Command.reader n command).Looks)
    (hin : (s.stepReader n command).1 ≠ .failed .invalidated) :
    (s'.stepReader n command).1 = (s.stepReader n command).1 ∧
      Mirrors (s.stepReader n command).2 (s'.stepReader n command).2 := by
  have hopen : s'.index.gate.isOpen = s.index.gate.isOpen := by
    rw [hs.index.gate.isOpen_eq, hs'.index.gate.isOpen_eq, hs.index.closed, hs'.index.closed]
  cases command with
  | traceback a =>
      refine ⟨h.reading hs hs' (fun _ _ => rfl) ?_ hin, ?_⟩
      · simp only [Index.codeAt?, h.code.floor]
      · show Mirrors { s with index := (s.index.traceback a).2 }
          { s' with index := (s'.index.traceback a).2 }
        rw [Index.traceback, Index.traceback, Index.reading_snd, Index.reading_snd]
        exact h
  | depthAt a =>
      refine ⟨h.reading hs hs' (fun _ _ => rfl) ?_ hin, ?_⟩
      · simp only [Index.depthRegionAt?, h.depth.floor]
      · show Mirrors { s with index := (s.index.depthAt a).2 }
          { s' with index := (s'.index.depthAt a).2 }
        rw [Index.depthAt, Index.depthAt, Index.reading_snd, Index.reading_snd]
        exact h
  | isOpen => exact ⟨congrArg Reply.flag hopen, h⟩
  | text => exact ⟨by simp only [Session.stepReader, hopen], h⟩
  | clone => exact ⟨congrArg (fun rs : Array Bool => Reply.number rs.size) h.readers, h.addReader⟩
  | drop => exact ⟨rfl, h.dropReader n⟩
  | pin =>
      have hsome : s.index.pin?.isSome = true := by
        cases hpin : s.index.pin? with
        | some pair => rfl
        | none =>
            refine absurd ?_ hin
            simp only [Session.stepReader, Session.takePin, hpin]
      obtain ⟨t, t', htake, htake', hmirror⟩ := h.takePin hs hs' hsome
      have hsize : s'.pins.size = s.pins.size := h.pins.length_eq.symm
      simp only [Session.stepReader, htake, htake', hsize]
      exact ⟨trivial, hmirror⟩
  | pinMany count => exact hlook.elim

theorem stepPin (h : Mirrors s s') (hs : Sound s sc) (hs' : Sound s' sc') {n : Nat} {p p' : HeldPin}
    (hp : s.pin? n = some p) (hp' : s'.pin? n = some p')
    (hpair : Counterpart s.index.gate.epoch s'.index.gate.epoch p p') (command : PinCommand) :
    (s'.stepPin n p' command).1 = (s.stepPin n p command).1 ∧
      Mirrors (s.stepPin n p command).2 (s'.stepPin n p' command).2 := by
  have hslot : s'.index.codeSlotAt? = s.index.codeSlotAt? := by
    funext a
    rw [Index.codeSlotAt?, Index.codeSlotAt?, h.code.floor]
  have hheld : s'.index.codeIn? = s.index.codeIn? := by
    funext id
    rw [Index.codeIn?, Index.codeIn?, h.code.toKept.entry]
  have hcurrent : s'.index.isCurrent p'.pin = s.index.isCurrent p.pin := by
    rw [h.current]
    show (s.index.gate.version == p'.pin.version) = (s.index.gate.version == p.pin.version)
    rw [hpair.version]
  have hdrop := h.dropPin hs hs' hp hp'
  cases command with
  | find a => exact ⟨by simp only [Session.stepPin, Index.codeAt?, h.code.floor], h⟩
  | hold a =>
      refine ⟨by simp only [Session.stepPin, hslot], ?_⟩
      simp only [Session.stepPin, hslot]
      exact h.hold hpair _
  | held a => exact ⟨by simp only [Session.stepPin, hheld, hpair.held], h⟩
  | firstCode => exact ⟨by simp only [Session.stepPin, Index.firstCode?, h.code.first], h⟩
  | codeRegions => exact ⟨by simp only [Session.stepPin, Index.codeRegions, h.code.entries], h⟩
  | depthRegions => exact ⟨by simp only [Session.stepPin, Index.depthRegions, h.depth.entries], h⟩
  | depthAt a => exact ⟨by simp only [Session.stepPin, Index.depthRegionAt?, h.depth.floor], h⟩
  | depthRegionAt a =>
      exact ⟨by simp only [Session.stepPin, Index.depthRegionAt?, h.depth.floor], h⟩
  | isCurrent => exact ⟨congrArg Reply.flag hcurrent, h⟩
  | text => exact ⟨by simp only [Session.stepPin, hcurrent], h⟩
  | finish => exact ⟨by simp only [Session.stepPin, hcurrent], hdrop⟩
  | unpin => exact ⟨rfl, hdrop⟩

/-- A look-up that is let in is answered alike, and afterwards the sessions still look the same. -/
theorem step (h : Mirrors s s') (hs : Sound s sc) (hs' : Sound s' sc') (hsettled : Settled s sc)
    (hsettled' : Settled s' sc') {c : Command} (hlook : c.Looks)
    (hin : ∀ n command, c = .reader n command → (s.step c).1 ≠ .failed .invalidated) :
    (s'.step c).1 = (s.step c).1 ∧ Mirrors (s.step c).2 (s'.step c).2 := by
  cases c with
  | reader n command =>
      have hreader : s'.hasReader n = s.hasReader n := by
        unfold hasReader
        rw [h.readers]
      have hin := hin n command rfl
      rw [step_reader_eq] at hin ⊢
      rw [step_reader_eq, hreader]
      by_cases hthere : s.hasReader n = true
      · rw [if_pos hthere] at hin ⊢
        rw [if_pos hthere]
        exact h.stepReader hs hs' n hlook hin
      · rw [if_neg hthere, if_neg hthere]
        exact ⟨rfl, h⟩
  | pin n command =>
      rw [step_pin_eq, step_pin_eq]
      have hpair := h.pin? n
      generalize hp : s.pin? n = pin at hpair
      generalize hp' : s'.pin? n = pin' at hpair
      cases hpair with
      | some hpair => exact h.stepPin hs hs' hp hp' hpair command
      | none => exact ⟨rfl, h⟩
  | unpinAll => exact ⟨rfl, h.dropPins hs hs' hsettled hsettled'⟩
  | writer command => exact hlook.elim

/-! ## Runs -/

/-- As long as the first session turns no reader away, both give the same answers. -/
theorem answers_eq (h : Mirrors s s') (hs : Sound s sc) (hs' : Sound s' sc')
    (hsettled : Settled s sc) (hsettled' : Settled s' sc') {cs : List Command}
    (hlook : ∀ c ∈ cs, c.Looks) (hin : s.Admits cs) : s'.answers cs = s.answers cs := by
  induction cs generalizing s s' sc sc' with
  | nil => rfl
  | cons c cs ih =>
      obtain ⟨hreply, hmirror⟩ :=
        h.step hs hs' hsettled hsettled' (hlook c (List.mem_cons_self ..)) hin.1
      obtain ⟨_, _, hstep⟩ := step_stepped hs hsettled c
      obtain ⟨_, _, hstep'⟩ := step_stepped hs' hsettled' c
      have hrest := ih hmirror hstep.leads.sound hstep'.leads.sound hstep.settled hstep'.settled
        (fun d hd => hlook d (List.mem_cons_of_mem c hd)) hin.2
      exact congrArg₂ List.cons hreply hrest

end Mirrors

/-- Whoever looks at nothing but what he sees through pins is never turned away. -/
theorem admits_of_pins {cs : List Command} (h : ∀ c ∈ cs, ∃ n command, c = .pin n command) :
    s.Admits cs := by
  induction cs generalizing s with
  | nil => trivial
  | cons c cs ih =>
      refine ⟨fun n command hc => ?_, ih fun d hd => h d (List.mem_cons_of_mem c hd)⟩
      obtain ⟨m, other, hpin⟩ := h c (List.mem_cons_self ..)
      cases hpin.symm.trans hc

/-! ## Collections -/

/-- Readers find the index as it was before a collection, and where there was room for another one
there is room. -/
theorem collect_mirrors (h : Sound s sc) (hwriter : s.writer = true) (keep : Option SlotId) :
    Mirrors s { s with index := (s.index.collectKeeping keep).2 } := by
  have ho := h.attended hwriter
  obtain ⟨es, released, w, hlead, hcol, -⟩ := Index.collectKeeping_spec s.index keep h.index ho
  have hkept := s.index.collectKeeping_kept keep
  have hopen : w.gate.isOpen = sc.view.gate.isOpen := hlead.sound.closed.trans h.index.closed.symm
  refine ⟨h.index.code.unedited hlead.sound.code hcol.codeLinked hkept.code,
    h.index.depth.unedited hlead.sound.depth hcol.depthLinked hkept.depth,
    isCurrent_congr h.index.gate hlead.sound.gate hopen hcol.generation, hwriter, hwriter, rfl, ?_⟩
  show List.Forall₂ (Option.Rel (Counterpart _ (s.index.collectKeeping keep).2.gate.epoch))
    s.pins.toList s.pins.toList
  rw [h.index.gate.epoch_eq, hlead.sound.gate.epoch_eq]
  refine List.forall₂_same.mpr fun pin hpin => ?_
  cases pin with
  | none => exact .none
  | some p =>
      refine .some ⟨rfl, rfl, fun hepoch => ?_⟩
      rcases hlead.moves.admits ho with hsame | hidle
      · exact hepoch.trans hsame
      · -- the new epoch has no readers, so this one is not counted there
        rw [hlead.moves.readers_eq, h.readers_eq, List.countP_eq_zero] at hidle
        exact absurd (beq_iff_eq.mpr hepoch) (hidle _ hpin)

end Session

end JitIndex
