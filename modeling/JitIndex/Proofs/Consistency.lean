import JitIndex.Proofs.Session.Acting

/-!
# When a pin is current

The generation counts mutations, modulo 2 ^ 30, and a pin remembers it. While
fewer mutations than that have come, a pin is current exactly if none has begun
since it was taken; pins, epochs and releases do not enter into it. Only
mutations change what is linked, so whoever holds a current pin has seen, all
the time, what was registered when the pin was taken.
-/

namespace JitIndex

open SkipList (Layout Entry Laid ids)

/-! ## Generations -/

/-- A move is a mutation, or else it leaves the generation and all that is linked alone. -/
theorem View.Move.mutations {v w : View} {es : List Event} (h : Move v es w) :
    (es.count .mutationBegun = 0 ∧ w.gate.generation = v.gate.generation ∧
      w.code.linked = v.code.linked ∧ w.depth.linked = v.depth.linked) ∨
    es.count .mutationBegun = 1 ∧ w.gate.generation = (v.gate.generation + 1) % 2 ^ 30 := by
  cases h with
  | release keep hsealed hdrained =>
      exact Or.inl ⟨(Index.disposal_work keep v.code.sealed).mutations, rfl, rfl, rfl⟩
  | turn hsealed => exact Or.inl ⟨rfl, rfl, rfl, rfl⟩
  | refuse table => exact Or.inl ⟨rfl, rfl, rfl, rfl⟩
  | @mutate newCode newDepth =>
      refine Or.inr ⟨?_, rfl⟩
      cases newCode <;> cases newDepth <;> rfl

namespace Scene

variable {a b : Scene} {es : List Event}

theorem Move.mutations (h : Move a es b) :
    (es.count .mutationBegun = 0 ∧ b.view.gate.generation = a.view.gate.generation ∧
      b.view.code.linked = a.view.code.linked ∧ b.view.depth.linked = a.view.depth.linked) ∨
    es.count .mutationBegun = 1 ∧
      b.view.gate.generation = (a.view.gate.generation + 1) % 2 ^ 30 := by
  cases h with
  | write hwriter hmove => exact hmove.mutations
  | pin hversion => exact Or.inl ⟨rfl, rfl, rfl, rfl⟩
  | unpin hpin => exact Or.inl ⟨rfl, rfl, rfl, rfl⟩
  | leave hwriter hcode hdepth => exact Or.inl ⟨rfl, rfl, rfl, rfl⟩
  | dispose hwriter hpins =>
      exact Or.inl ⟨(Index.disposal_work none a.view.code.orphans).mutations, rfl, rfl, rfl⟩

theorem Moves.generation_eq (h : Moves a es b) (hlt : a.view.gate.generation < 2 ^ 30) :
    b.view.gate.generation = (a.view.gate.generation + es.count .mutationBegun) % 2 ^ 30 := by
  induction h with
  | refl => exact (Nat.mod_eq_of_lt hlt).symm
  | tail _ hmove ih =>
      rw [List.count_append]
      rcases hmove.mutations with ⟨hcount, hgen, -, -⟩ | ⟨hcount, hgen⟩
      · rw [hgen, ih, hcount, Nat.add_zero]
      · rw [hgen, ih, hcount]
        omega

/-- Without a mutation nothing changes that a reader could look up. -/
theorem Moves.registry_eq (h : Moves a es b) (hnone : es.count .mutationBegun = 0) :
    b.view.registry = a.view.registry := by
  induction h with
  | refl => rfl
  | tail _ hmove ih =>
      rw [List.count_append, Nat.add_eq_zero_iff] at hnone
      rcases hmove.mutations with ⟨-, -, hcode, hdepth⟩ | ⟨hcount, -⟩
      · exact (View.registry_congr hcode hdepth).trans (ih hnone.1)
      · exact absurd (hcount.symm.trans hnone.2) Nat.one_ne_zero

/-- A pin that was taken on the way remembers the generation, if there was no mutation. -/
theorem Moves.version_eq (h : Moves a es b) (hnone : es.count .mutationBegun = 0) {n : Nat}
    {p : Gate.Pin} (hn : a.pins.length ≤ n) (hp : b.pins[n]? = some (some p)) :
    p.version.toNat = 2 ^ 34 * b.view.gate.generation := by
  induction h with
  | refl =>
      rw [List.getElem?_eq_none hn] at hp
      cases hp
  | @tail b c es fs hmoves hmove ih =>
      rw [List.count_append, Nat.add_eq_zero_iff] at hnone
      have hgen : c.view.gate.generation = b.view.gate.generation := by
        rcases hmove.mutations with ⟨-, hgen, -⟩ | ⟨hcount, -⟩
        · exact hgen
        · exact absurd (hcount.symm.trans hnone.2) Nat.one_ne_zero
      rw [hgen]
      rcases Nat.lt_or_ge n b.pins.length with hold | hnew
      · exact ih hnone.1 (hmove.pin_stays.2 hold hp)
      · -- the number is new, so this move took the pin
        cases hmove with
        | @pin version hversion =>
            rw [List.getElem?_append_right hnew, List.getElem?_singleton] at hp
            split at hp
            · obtain rfl := Option.some.inj (Option.some.inj hp)
              exact hversion
            · cases hp
        | write => rw [List.getElem?_eq_none hnew] at hp; cases hp
        | unpin =>
            rw [List.getElem?_eq_none (by rwa [List.length_set])] at hp
            cases hp
        | leave => rw [List.getElem?_eq_none hnew] at hp; cases hp
        | dispose => rw [List.getElem?_eq_none hnew] at hp; cases hp

end Scene

namespace Session

def mutations (s : Session) : Nat := s.index.host.books.count .mutationBegun

variable {settings : Settings} {allocator : Allocator} {s s' : Session} {sc sc' : Scene}

theorem Reached.generation_eq (h : Reached settings allocator s sc) :
    sc.view.gate.generation = s.mutations % 2 ^ 30 := by
  have := h.leads.moves.generation_eq (by decide)
  rwa [show opening.view.gate.generation = 0 from rfl, Nat.zero_add] at this

/-- A pin is current as long as the generation is the one it remembers. -/
theorem isCurrent_iff (h : Sound s sc) {p : Gate.Pin} {generation : Nat}
    (hp : p.version.toNat = 2 ^ 34 * generation) :
    s.index.isCurrent p = true ↔ sc.view.gate.generation = generation := by
  have hversion := h.index.gate.version_eq
  rw [h.index.closed, Bool.toNat_false, Nat.zero_add] at hversion
  unfold Index.isCurrent Gate.isCurrent
  rw [beq_iff_eq, ← UInt64.toNat_inj, hversion, hp]
  omega

/-- Whether a pin is current depends on the generation alone. -/
theorem isCurrent_congr {ix ix' : Index} {f f' : Gate.Fields} (h : Gate.Packs ix.gate f)
    (h' : Gate.Packs ix'.gate f') (hopen : f'.isOpen = f.isOpen)
    (hgen : f'.generation = f.generation) (p : Gate.Pin) : ix'.isCurrent p = ix.isCurrent p := by
  unfold Index.isCurrent Gate.isCurrent
  rw [(h'.version_inj h).mpr ⟨hopen, hgen⟩]

theorem Leads.mutations_eq {es : List Event} (h : Leads s sc es s' sc') :
    s'.mutations = s.mutations + es.count .mutationBegun := by
  unfold mutations
  rw [h.books, List.count_append]

/-- The pin behind a number that is still in use. -/
theorem Leads.pin_before {es : List Event} (h : Leads s sc es s' sc') (hs : Sound s sc) {n : Nat}
    {p' : HeldPin} (hn : n < s.pins.size) (hp' : s'.pin? n = some p') :
    ∃ p, s.pin? n = some p ∧ p.pin = p'.pin := by
  have hback := h.moves.pin_stays.2 (hs.length_pins.symm ▸ hn) (h.sound.pin_live hp')
  obtain ⟨held, hp⟩ := hs.pin?_of_live hback
  exact ⟨_, hp, rfl⟩

theorem lt_size_of_pin {n : Nat} {p : HeldPin} (h : s.pin? n = some p) : n < s.pins.size :=
  (Array.getElem?_eq_some_iff.mp (Option.join_eq_some_iff.mp h)).1

/-- The command that takes a pin makes no mutation, and the pin remembers where it was taken. -/
theorem Stepped.pin_taken {c : Command} {reply : Reply} {es : List Event}
    (h : Stepped s sc c reply es s' sc') (hs : Sound s sc) {n : Nat} {p : HeldPin}
    (hnew : s.pins.size ≤ n) (hp : s'.pin? n = some p) :
    p.pin.version.toNat = 2 ^ 34 * sc'.view.gate.generation := by
  obtain ⟨k, hwork, -, hquiet⟩ := h.work
  have hlt := lt_size_of_pin hp
  have hnone : k = 0 := hquiet.resolve_right (by omega)
  exact h.leads.moves.version_eq (hnone ▸ hwork.mutations) (hs.length_pins.symm ▸ hnew)
    (h.leads.sound.pin_live hp)

/-- While there were few mutations, a pin is current exactly if none has come since it was taken. -/
theorem Leads.isCurrent_eq {es : List Event} (h : Leads s sc es s' sc')
    (hs : Reached settings allocator s sc) (hs' : Reached settings allocator s' sc')
    {p : Gate.Pin} (hp : p.version.toNat = 2 ^ 34 * sc.view.gate.generation)
    (hfew : s'.mutations < 2 ^ 30) :
    s'.index.isCurrent p = decide (s'.mutations = s.mutations) := by
  rw [Bool.eq_iff_iff, isCurrent_iff h.sound hp, decide_eq_true_iff, hs'.generation_eq,
    hs.generation_eq]
  -- neither count reaches the modulus
  have hmore := h.mutations_eq
  omega

/-- What a reader is told when he asks whether his pin is current, and when he finishes. -/
theorem step_isCurrent {n : Nat} {p : HeldPin} (hp : s.pin? n = some p) :
    (s.step (.pin n .isCurrent)).1 = .flag (s.index.isCurrent p.pin) ∧
      (s.step (.pin n .finish)).1 =
        if s.index.isCurrent p.pin then .accepted else .failed .invalidated := by
  unfold step
  dsimp only
  rw [hp]
  exact ⟨rfl, rfl⟩

/-- While no mutation comes, whoever is pinned sees what was registered before. -/
theorem answersPin_of_acts {s₁ s s₂ : Session} (h : Sound s₁ sc) (hs : Settled s₁ sc)
    (hacts : Acts s₁ s) (hacts' : Acts s s₂) {n : Nat} {p : HeldPin} (hn : n < s₁.pins.size)
    (hp : s₂.pin? n = some p) (hsame : s₂.mutations = s₁.mutations) (command : PinCommand) :
    s₁.index.registry.AnswersPin command (s.step (.pin n command)).1 := by
  obtain ⟨es, sc', hlead, hs'⟩ := acts_lead h hs hacts
  obtain ⟨fs, sc'', hlead', -⟩ := acts_lead hlead.sound hs' hacts'
  have hcount : es.count .mutationBegun = 0 := by
    have hbefore := hlead.mutations_eq
    have hafter := hlead'.mutations_eq
    omega
  have hsize : n < s.pins.size := by
    have hle := hlead.moves.pin_stays.1
    rw [h.length_pins, hlead.sound.length_pins] at hle
    exact Nat.lt_of_lt_of_le hn hle
  obtain ⟨q, hq, -⟩ := hlead'.pin_before hlead.sound hsize hp
  rw [h.index.registry_eq, ← hlead.moves.registry_eq hcount]
  unfold step
  dsimp only
  rw [hq]
  exact answersPin hlead.sound n q command

/-- A command that no reader notices makes no difference to a pin. -/
theorem isCurrent_of_quiet (h : Sound s sc) (hs : Settled s sc) {c : Command}
    (hquiet : s.index.registry.Quiet c (s.step c).1) (p : Gate.Pin) :
    (s.step c).2.index.isCurrent p = s.index.isCurrent p := by
  obtain ⟨es, sc', hstep⟩ := step_stepped h hs c
  obtain ⟨n, hwork, hzero, -⟩ := hstep.work
  rw [h.index.registry_eq] at hquiet
  have hgen := hstep.leads.moves.generation_eq h.index.gate.generation
  rw [hwork.mutations, hzero hquiet, Nat.add_zero, Nat.mod_eq_of_lt h.index.gate.generation] at hgen
  exact isCurrent_congr h.index.gate hstep.leads.sound.index.gate
    (hstep.leads.sound.index.closed.trans h.index.closed.symm) hgen p

/-- A pin is current if and only if no mutation has begun since it was taken, and then it has only
ever seen what was registered at that moment. It may have been taken between two acts of one
command, as while a removal waits. What a reader cannot notice leaves it current, and so do new
epochs and releases. -/
theorem isCurrent_iff_no_mutation {s₀ s₁ s₂ : Session} {c : Command}
    (h₀ : Acts (start settings allocator) s₀) (h₁ : s₁ = (s₀.step c).2) (h₂ : Acts s₁ s₂) {n : Nat}
    {p₁ p₂ : HeldPin} (hnew : s₀.pins.size ≤ n) (hp₁ : s₁.pin? n = some p₁)
    (hp₂ : s₂.pin? n = some p₂) (hfew : s₂.mutations < 2 ^ 30) :
    (s₂.step (.pin n .isCurrent)).1 = .flag (decide (s₂.mutations = s₁.mutations)) ∧
    (s₂.step (.pin n .finish)).1 =
      (if s₂.mutations = s₁.mutations then .accepted else .failed .invalidated) ∧
    (s₂.mutations = s₁.mutations → ∀ s, Acts s₁ s → Acts s s₂ → ∀ command,
      s₁.index.registry.AnswersPin command (s.step (.pin n command)).1) ∧
    (∀ c, s₂.index.registry.Quiet c (s₂.step c).1 →
      (s₂.step c).2.index.isCurrent p₂.pin = s₂.index.isCurrent p₂.pin) ∧
    s₂.index.sealRetired.isCurrent p₂.pin = s₂.index.isCurrent p₂.pin ∧
    ∀ epoch keep, (s₂.index.release epoch keep).2.isCurrent p₂.pin = s₂.index.isCurrent p₂.pin := by
  obtain ⟨sc₀, hreached₀⟩ := acts_reached settings allocator h₀
  have hsound₀ := hreached₀.leads.sound
  obtain ⟨es, sc₁, hstep⟩ := step_stepped hsound₀ hreached₀.settled c
  rw [← h₁] at hstep
  have hsound₁ := hstep.leads.sound
  have hreached₁ := (hreached₀.leads.trans hstep.leads).reached hstep.settled
  obtain ⟨fs, sc₂, hlead, hsettled₂⟩ := acts_lead hsound₁ hstep.settled h₂
  have hsound₂ := hlead.sound
  have hreached₂ := (hreached₁.leads.trans hlead).reached hsettled₂
  have hlt := lt_size_of_pin hp₁
  have hsame : p₁.pin = p₂.pin := by
    obtain ⟨p, hp, hpin⟩ := hlead.pin_before hsound₁ hlt hp₂
    rw [← hpin, Option.some.inj (hp₁.symm.trans hp)]
  have hversion := hstep.pin_taken hsound₀ hnew hp₁
  rw [hsame] at hversion
  have hcurrent := hlead.isCurrent_eq hreached₁ hreached₂ hversion hfew
  obtain ⟨hflag, hfinish⟩ := step_isCurrent hp₂
  rw [hcurrent] at hflag hfinish
  refine ⟨hflag, ?_, ?_, fun c hquiet => isCurrent_of_quiet hsound₂ hsettled₂ hquiet _, ?_,
    fun _ _ => rfl⟩
  · simpa only [decide_eq_true_eq] using hfinish
  · intro hnone s hbefore hafter command
    exact answersPin_of_acts hsound₁ hstep.settled hbefore hafter hlt hp₂ hnone command
  · have hturned : Gate.Packs s₂.index.sealRetired.gate
        { sc₂.view.gate with epoch := sc₂.view.gate.epoch.other } := hsound₂.index.gate.turn
    exact isCurrent_congr hsound₂.index.gate hturned rfl rfl _

/-- A region was replaced twice while there was a reader, who is in the way of the one that came
first. -/
def overtaken : Session := (start {} .generous).run [
  .writer (.addCode ⟨⟨16, 8⟩, .ofDescriptors [⟨⟨1⟩, 0, 8, 4⟩]⟩), .reader 0 .pin,
  .writer (.addCode ⟨⟨16, 8⟩, .ofDescriptors [⟨⟨2⟩, 0, 8, 4⟩]⟩),
  .writer (.addCode ⟨⟨16, 8⟩, .ofDescriptors [⟨⟨3⟩, 0, 8, 4⟩]⟩)]

/-- A second reader, who comes then, is current when a third one has come, the first one has left,
and an empty block was freed, which released what came first and began a new epoch. He sees what was
registered when he came. Once a depth region is registered he is not current any more. -/
theorem isCurrent_until_mutation :
    let s₁ := (overtaken.step (.reader 0 .pin)).2
    let s₂ := s₁.run [.reader 0 .pin, .pin 0 .unpin, .writer (.freeBlock 32 32)]
    let s₃ := s₂.run [.writer (.addDepth ⟨⟨64, 8⟩, 1⟩)]
    s₂.index.gate.epoch ≠ s₁.index.gate.epoch ∧
    s₁.index.host.books.filterMap Event.dropped? = [] ∧
    s₂.index.host.books.filterMap Event.dropped? = [⟨0, .ofDescriptors [⟨⟨1⟩, 0, 8, 4⟩]⟩] ∧
    (s₂.step (.pin 1 .isCurrent)).1 = .flag true ∧
    (s₂.step (.pin 1 .finish)).1 = .accepted ∧
    s₁.index.registry.AnswersPin (.find 20) (s₂.step (.pin 1 (.find 20))).1 ∧
    (s₃.step (.pin 1 .isCurrent)).1 = .flag false ∧
    (s₃.step (.pin 1 .finish)).1 = .failed .invalidated := by
  intro s₁ s₂ s₃
  have hacts₀ : Acts (start {} .generous) overtaken := run_acts _ _
  have hacts₂ : Acts s₁ s₂ := run_acts _ _
  have hacts₃ : Acts s₁ s₃ := hacts₂.trans (run_acts _ _)
  obtain ⟨p₁, hp₁⟩ := Option.isSome_iff_exists.mp
    (by decide +kernel +zetaReduce : (s₁.pin? 1).isSome = true)
  obtain ⟨p₂, hp₂⟩ := Option.isSome_iff_exists.mp
    (by decide +kernel +zetaReduce : (s₂.pin? 1).isSome = true)
  obtain ⟨p₃, hp₃⟩ := Option.isSome_iff_exists.mp
    (by decide +kernel +zetaReduce : (s₃.pin? 1).isSome = true)
  have hnew : overtaken.pins.size ≤ 1 := by decide +kernel
  have hsame : s₂.mutations = s₁.mutations := by decide +kernel +zetaReduce
  have hmore : s₃.mutations ≠ s₁.mutations := by decide +kernel +zetaReduce
  have hfew : s₃.mutations < 2 ^ 30 := by decide +kernel +zetaReduce
  obtain ⟨hcurrent, hfinish, hanswers, -⟩ :=
    isCurrent_iff_no_mutation hacts₀ rfl hacts₂ hnew hp₁ hp₂ (by decide +kernel +zetaReduce)
  obtain ⟨hstale, hfailed, -⟩ :=
    isCurrent_iff_no_mutation hacts₀ rfl hacts₃ hnew hp₁ hp₃ hfew
  rw [decide_eq_true hsame] at hcurrent
  rw [if_pos hsame] at hfinish
  rw [decide_eq_false hmore] at hstale
  rw [if_neg hmore] at hfailed
  exact ⟨by decide +kernel +zetaReduce, by decide +kernel +zetaReduce,
    by decide +kernel +zetaReduce, hcurrent, hfinish, hanswers hsame s₂ hacts₂ .refl (.find 20),
    hstale, hfailed⟩

end Session

end JitIndex
