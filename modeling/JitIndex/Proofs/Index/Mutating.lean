import JitIndex.Index.Write
import JitIndex.Proofs.Index.Collecting
import JitIndex.Proofs.SkipList.Alloc

/-!
# The mutations of a writer

Each operation that changes what is linked does so between the beginning and
the end of one mutation, in one move. The lemmas here say which one: which
entries are linked afterwards, and that the change shows in the books as one
mutation. None of the assumptions that are checked on the way is ever broken.
-/

namespace JitIndex

open SkipList (Layout Entry Laid ids)

namespace Index

variable {ix : Index} {v : View}

/-! ## Inside a mutation -/

theorem books_beginMutation {f : Gate.Fields} (h : Gate.Packs ix.gate f)
    (hclosed : f.isOpen = false) :
    ix.beginMutation.host.books = ix.host.books ++ [.mutationBegun] := by
  have hopen : (!ix.gate.isOpen) = true := by rw [h.isOpen_eq, hclosed]; rfl
  show ((ix.host.check (!ix.gate.isOpen) _).note _).books = _
  rw [hopen, Host.check_of_true]
  exact Host.books_note_of_books _ rfl

theorem changeCode_eq {β : Type} {unlinked : β → Nat}
    {change : SkipList CodeRecord → β × SkipList CodeRecord} {answer : β}
    {code : SkipList CodeRecord}
    (hchange : change ix.code = (answer, code)) (hle : unlinked answer ≤ ix.code.count) :
    ix.changeCode unlinked change = (answer, { ix with code }) := by
  unfold changeCode
  simp only [hchange, hle, decide_true, Host.check_of_true]

theorem changeDepth_eq {β : Type} {unlinked : β → Nat}
    {change : SkipList Payload → β × SkipList Payload} {answer : β} {depth : SkipList Payload}
    (hchange : change ix.depth = (answer, depth)) (hle : unlinked answer ≤ ix.depth.count) :
    ix.changeDepth unlinked change = (answer, { ix with depth }) := by
  unfold changeDepth
  simp only [hchange, hle, decide_true, Host.check_of_true]

/-- The index after a mutation that changed nothing but its lists. -/
def mutated (ix : Index) (code : SkipList CodeRecord) (depth : SkipList Payload) : Index :=
  { ix.beginMutation with code, depth }.endMutation

theorem mutate_eq {β : Type} {change : Index → β × Index} {answer : β} {code : SkipList CodeRecord}
    {depth : SkipList Payload}
    (hchange : change ix.beginMutation = (answer, { ix.beginMutation with code, depth })) :
    ix.mutate change = (answer, ix.mutated code depth) := by
  unfold mutate
  rw [hchange]
  rfl

/-- A mutation leaves what it does not change. The gate is kept a variable here: whether two words
are the same is not to be computed. -/
theorem mutated_fields (ix : Index) (code : SkipList CodeRecord) (depth : SkipList Payload) :
    (ix.mutated code depth).code = code ∧ (ix.mutated code depth).depth = depth ∧
      (ix.mutated code depth).gate = ix.gate.beginMutation.endMutation ∧
      (ix.mutated code depth).sealedEpoch = ix.sealedEpoch ∧
      (ix.mutated code depth).taken = ix.taken ∧
      (ix.mutated code depth).host = ix.beginMutation.host := by
  have hfields : ∀ (g : Gate) (ix' : Index),
      ix' = { ix.beginMutation with gate := g, code, depth } →
      ix'.code = code ∧ ix'.depth = depth ∧ ix'.gate = g ∧ ix'.sealedEpoch = ix.sealedEpoch ∧
        ix'.taken = ix.taken ∧ ix'.host = ix.beginMutation.host := by
    rintro g ix' rfl
    exact ⟨rfl, rfl, rfl, rfl, rfl, rfl⟩
  exact hfields _ _ rfl

theorem mutated_sound {code : SkipList CodeRecord} {depth : SkipList Payload}
    {c : Layout CodeRecord} {d : Layout Payload} (hgate : Gate.Packs ix.gate v.gate)
    (hclosed : v.gate.isOpen = false) (hsealed : ix.sealedEpoch = v.sealedEpoch)
    {arrived : Nat} (htaken : ix.taken = v.taken + arrived) (hcode : Laid code c)
    (hdepth : Laid depth d) (hc : c.pending = []) (hd : d.pending = []) :
    Sound (ix.mutated code depth) (v.mutated arrived c d) := by
  obtain ⟨hcode', hdepth', hgate', hsealed', htaken', -⟩ := ix.mutated_fields code depth
  refine ⟨?_, ?_, hc, hd, ?_, hclosed, hsealed'.trans hsealed, htaken'.trans htaken⟩
  · rw [hcode']
    exact hcode
  · rw [hdepth']
    exact hdepth
  · rw [hgate']
    exact hgate.mutated hclosed

end Index

/-! ## What a mutation does to a list -/

namespace SkipList

variable {α : Type} {l l' : SkipList α} {y y' : Layout α}

/-- A list and its layout, before a mutation and after it. What was in a slot is still there, except
in the slot of a new entry. -/
structure Changed (l : SkipList α) (y : Layout α) (added : Option (Entry α)) (l' : SkipList α)
    (y' : Layout α) : Prop where
  laid : Laid l' y'
  ready : y'.pending = []
  mutated : y.Mutated added y'
  used : l.used ≤ l'.used
  core : ∀ id : SlotId, id.val ≤ l.used → (∀ e, added = some e → id ≠ e.id) →
    l'.core? id = l.core? id

theorem Changed.refl (h : Laid l y) (hready : y.pending = []) : Changed l y none l y :=
  ⟨h, hready, .refl y, Nat.le_refl _, fun _ _ _ => rfl⟩

theorem Changed.keeps {added : Option (Entry α)} (h : Changed l y added l' y') {half : Half}
    {es : List Event} (hfilled : ∀ e, added = some e → .slotFilled half e.id ∈ es) :
    Index.Keeps half es l l' := by
  refine ⟨h.used, fun id hid hnot => h.core id hid fun e he heq => hnot ?_⟩
  rw [heq]
  exact hfilled e he

theorem countOf_find? (es : List (Entry α)) (p : Entry α → Bool) :
    Index.countOf (es.find? p) ≤ es.length := by
  unfold Index.countOf
  cases hfind : es.find? p with
  | none => exact Nat.zero_le _
  | some e => exact List.length_pos_of_mem (List.mem_of_find?_eq_some hfind)

namespace Laid

theorem unlink_changed (h : Laid l y) (hready : y.pending = []) (key : Addr) :
    ∃ l', l.unlink key = (y.linked.find? fun e => e.key == key, l') ∧
      Changed l y none l' (y.unlink key) := by
  obtain ⟨l', hunlink, hlaid, hcore, hused⟩ := h.unlink_eq key
  refine ⟨l', hunlink, hlaid, hready, ⟨?_, ⟨_, rfl⟩, rfl, rfl, rfl, List.suffix_refl _,
    by rintro _ ⟨⟩⟩, Nat.le_of_eq hused.symm, fun id _ _ => hcore id⟩
  simp only [Layout.unlink, filter_ne_eq h.sorted key, Option.toList_none, List.nil_append]
  conv_rhs => rw [split_at_key key h.sorted]
  simp only [List.append_assoc]
  exact List.Perm.append_left _ (List.perm_append_comm_assoc ..)

/-- Many nodes that are unlinked at once. -/
theorem retired_changed {es : List (Entry α)} {p : Entry α → Bool} (hready : y.pending = [])
    (hperm : es.Perm (y.linked.filter p))
    (hlaid : Laid l' { y with
      linked := y.linked.filter fun e => !p e
      retired := es.reverse ++ y.retired })
    (hcore : ∀ id, l'.core? id = l.core? id) (hused : l'.used = l.used) :
    Changed l y none l' { y with
      linked := y.linked.filter fun e => !p e
      retired := es.reverse ++ y.retired } := by
  refine ⟨hlaid, hready, ⟨?_, ⟨_, rfl⟩, rfl, rfl, rfl, List.suffix_refl _, by rintro _ ⟨⟩⟩,
    Nat.le_of_eq hused.symm, fun id _ _ => hcore id⟩
  simp only [Option.toList_none, List.nil_append]
  rw [← List.append_assoc]
  refine List.Perm.append_right _ ?_
  exact ((es.reverse_perm.trans hperm).append_left _).trans
    (List.perm_append_comm.trans (List.filter_append_perm p y.linked))

theorem unlinkBetween_changed (h : Laid l y) (hready : y.pending = []) (low high : Addr) :
    ∃ es l' y', l.unlinkBetween low high = (es, l') ∧ Changed l y none l' y' ∧
      es.Perm (y.linked.filter fun e => low ≤ e.key && e.key ≤ high) ∧
      y'.linked = (y.linked.filter fun e => !(low ≤ e.key && e.key ≤ high)) ∧
      y'.retired = es.reverse ++ y.retired := by
  obtain ⟨es, l', hunlink, hperm, hlaid, hcore, hused⟩ := h.unlinkBetween_spec low high
  exact ⟨es, l', _, hunlink, retired_changed hready hperm hlaid hcore hused, hperm, rfl, rfl⟩

theorem unlinkAll_changed (h : Laid l y) (hready : y.pending = []) :
    ∃ es l' y', l.unlinkAll = (es, l') ∧ Changed l y none l' y' ∧ es.Perm y.linked ∧
      y'.linked = [] := by
  obtain ⟨es, l', hunlink, hperm, hlaid, hcore, hused⟩ := h.unlinkAll_spec
  have hall : y.linked.filter (fun _ => true) = y.linked := List.filter_true _
  have hnone : y.linked.filter (fun _ => !true) = [] := List.filter_false _
  have hchanged : Changed l y none l' { y with
      linked := y.linked.filter fun _ => !true
      retired := es.reverse ++ y.retired } := by
    refine retired_changed (p := fun _ => true) hready (hall.symm ▸ hperm) ?_ hcore hused
    rw [hnone]
    exact hlaid
  exact ⟨es, l', _, hunlink, hchanged, hperm, hnone⟩

/-- A new node takes the place of the one with its key. -/
theorem linked_changed (h : Laid l y) (hready : y.pending = []) {e : Entry α}
    (hfresh : e.id ∈ y.free ∨ l.used < e.id.val) (hlaid : Laid l' ((y.make e).link e))
    (hused : l.used ≤ l'.used)
    (hcore : ∀ x : SlotId, x ≠ e.id → x.val ≤ l.used → l'.core? x = l.core? x) :
    Changed l y (some e) l' ((y.make e).link e) := by
  refine ⟨hlaid, ?_, ⟨?_, ⟨_, rfl⟩, rfl, rfl, rfl, List.tail_suffix _, fun f hf => ?_⟩, hused,
    fun id hid hne => hcore id (hne e rfl) hid⟩
  · simp [Layout.link, Layout.make, hready]
  · simp only [Layout.link, Layout.unlink, Layout.make, Option.toList_some]
    conv_rhs => rw [split_at_key e.key h.sorted]
    simp only [List.append_assoc, List.cons_append, List.nil_append]
    refine List.perm_middle.trans (List.Perm.cons e (List.Perm.append_left _ ?_))
    exact List.perm_append_comm_assoc ..
  · obtain rfl := Option.some.inj hf
    intro hmem
    obtain ⟨f, hf, hid⟩ := mem_ids.mp hmem
    rcases hfresh with hfree | hnew
    · exact h.ne_of_free hfree hf hid.symm
    · have := h.mem_used hf
      rw [hid] at this
      omega

/-- An entry is registered in two steps, and the second one cannot fail. -/
theorem register_cases [Inhabited α] (h : Laid l y) (hready : y.pending = []) (host : Host)
    (key : Addr) (payload : α) :
    (∃ host', l.alloc host key payload = (.error .allocation, l, host') ∧
      host'.books = host.books) ∨
    ∃ e l₁ l₂ y' host', e.key = key ∧ e.payload = payload ∧
      l.alloc host key payload = (.ok e.id, l₁, host') ∧ host'.books = host.books ∧
      l₁.link e.id = (y.linked.find? fun f => f.key == key, l₂) ∧
      Index.countOf (y.linked.find? fun f => f.key == key) ≤ l₁.count ∧
      Changed l y (some e) l₂ y' ∧
      y'.linked = y.linked.filter (fun f => f.key < key) ++
        e :: y.linked.filter (fun f => key < f.key) ∧
      y'.retired = (y.linked.find? fun f => f.key == key).toList ++ y.retired := by
  rcases h.alloc_cases host key payload with
    hrefused | ⟨id, l₁, host', halloc, hbooks, hfresh, hused, hlaid, hnode⟩
  · exact Or.inl hrefused
  · obtain ⟨l₂, hlink, hlaid', hcore', hused'⟩ := hlaid.link_eq (List.mem_cons_self ..)
    have hchanged := h.linked_changed hready (hfresh.imp List.mem_of_mem_head? And.right) hlaid'
      (hused' ▸ hused)
      fun x hx hle => (hcore' x).trans (core?_congr (hnode x hx hle))
    have hle : Index.countOf (y.linked.find? fun f => f.key == key) ≤ l₁.count := by
      rw [hlaid.count]
      exact countOf_find? y.linked _
    exact Or.inr ⟨_, l₁, l₂, _, host', rfl, rfl, halloc, hbooks, hlink, hle, hchanged, rfl, rfl⟩

end Laid

end SkipList

namespace Index

variable {ix : Index} {v : View}

/-! ## Mutations -/

/-- A mutation is one move. It may begin with a new node that was filled in before. -/
theorem leads_mutated (h : Sound ix v) {filled : Index} {newCode : Option (Entry CodeRecord)}
    {newDepth : Option (Entry Payload)} {code : SkipList CodeRecord} {depth : SkipList Payload}
    {c : Layout CodeRecord} {d : Layout Payload} (hgate : filled.gate = ix.gate)
    (hsealed : filled.sealedEpoch = ix.sealedEpoch)
    (htaken : filled.taken = v.taken + newCode.toList.length)
    (hserial : ∀ e, newCode = some e → e.payload.owned.serial = v.taken)
    (hbooks : filled.host.books = ix.host.books ++ arrival newCode newDepth)
    (hcode : SkipList.Changed ix.code v.code newCode code c)
    (hdepth : SkipList.Changed ix.depth v.depth newDepth depth d) :
    Leads ix v (arrival newCode newDepth ++ [.mutationBegun]) (filled.mutated code depth)
      (v.mutated newCode.toList.length c d) := by
  obtain ⟨hcode₁, hdepth₁, -, -, -, hhost₁⟩ := filled.mutated_fields code depth
  have hpacks : Gate.Packs filled.gate v.gate := hgate ▸ h.gate
  refine ⟨.single (.mutate hcode.mutated hdepth.mutated hserial), ?_, ?_, ?_, ?_⟩
  · exact mutated_sound hpacks h.closed (hsealed.trans h.sealedEpoch) htaken hcode.laid hdepth.laid
      hcode.ready hdepth.ready
  · rw [hhost₁, books_beginMutation hpacks h.closed, hbooks, List.append_assoc]
  · rw [hcode₁]
    exact hcode.keeps fun e he => by simp [arrival, he]
  · rw [hdepth₁]
    exact hdepth.keeps fun e he => by simp [arrival, he]

theorem leads_unlinked (h : Sound ix v) {code : SkipList CodeRecord} {depth : SkipList Payload}
    {c : Layout CodeRecord} {d : Layout Payload}
    (hcode : SkipList.Changed ix.code v.code none code c)
    (hdepth : SkipList.Changed ix.depth v.depth none depth d) :
    Leads ix v [.mutationBegun] (ix.mutated code depth) (v.mutated 0 c d) := by
  have hnothing : ix.host.books = ix.host.books ++ arrival none none := (List.append_nil _).symm
  exact leads_mutated h rfl rfl (h.taken.trans (Nat.add_zero _).symm) (by rintro _ ⟨⟩) hnothing
    hcode hdepth

theorem Sound.code_refl (h : Sound ix v) : SkipList.Changed ix.code v.code none ix.code v.code :=
  .refl h.code h.codeReady

theorem Sound.depth_refl (h : Sound ix v) :
    SkipList.Changed ix.depth v.depth none ix.depth v.depth :=
  .refl h.depth h.depthReady

/-! ## Registering -/

theorem linkCode_eq {id : SlotId} {answer : Option (Entry CodeRecord)} {code : SkipList CodeRecord}
    (hlink : ix.code.link id = (answer, code)) (hle : countOf answer ≤ ix.code.count) :
    ix.linkCode id = (answer, ix.mutated code ix.depth) := by
  refine mutate_eq ?_
  exact changeCode_eq hlink hle

theorem linkDepth_eq {id : SlotId} {answer : Option (Entry Payload)} {depth : SkipList Payload}
    (hlink : ix.depth.link id = (answer, depth)) (hle : countOf answer ≤ ix.depth.count) :
    ix.linkDepth id = (answer, ix.mutated ix.code depth) := by
  refine mutate_eq ?_
  exact changeDepth_eq hlink hle

theorem registerCode_spec (h : Sound ix v) (region : CodeRegion) :
    (∃ ix', ix.registerCode region = (.error .allocation, ix') ∧
      Leads ix v [.tableTaken ⟨v.taken, region.table⟩, .tableDropped none ⟨v.taken, region.table⟩]
        ix' { v with taken := v.taken + 1 }) ∨
    ∃ e ix' c, e.key = region.start ∧ e.payload = ⟨region.size, v.taken, region.table⟩ ∧
      ix.registerCode region = (.ok (v.code.linked.find? fun f => f.key == region.start), ix') ∧
      Leads ix v (arrival (some e) none ++ [.mutationBegun]) ix' (v.mutated 1 c v.depth) ∧
      c.linked = v.code.linked.filter (fun f => f.key < region.start) ++
        e :: v.code.linked.filter (fun f => region.start < f.key) ∧
      c.retired =
        (v.code.linked.find? fun f => f.key == region.start).toList ++ v.code.retired := by
  have hbooks₀ : (ix.host.note (.tableTaken ⟨v.taken, region.table⟩)).books =
      ix.host.books ++ [.tableTaken ⟨v.taken, region.table⟩] := Host.books_note_of_books _ rfl
  unfold registerCode
  rw [h.taken]
  rcases h.code.register_cases h.codeReady (ix.host.note (.tableTaken ⟨v.taken, region.table⟩))
      region.start ⟨region.size, v.taken, region.table⟩ with
    ⟨host, halloc, hbooks⟩ |
    ⟨e, code, code', c, host, hkey, hpayload, halloc, hbooks, hlink, hle, hchanged, hlayout⟩
  · simp only [halloc]
    refine Or.inl ⟨_, rfl, .single (.refuse region.table), ?_, ?_, ?_, ?_⟩
    · exact ⟨h.code, h.depth, h.codeReady, h.depthReady, h.gate, h.closed, h.sealedEpoch, rfl⟩
    · show (host.notes _).books = _
      rw [Host.books_notes, hbooks, hbooks₀, List.append_assoc]
      rfl
    · exact .of_core rfl fun _ => rfl
    · exact .of_core rfl fun _ => rfl
  · simp only [halloc]
    obtain ⟨filled, hfilled⟩ : ∃ filled, filled =
        { ix with code, taken := v.taken + 1, host := host.note (.slotFilled .code e.id) } :=
      ⟨_, rfl⟩
    have hcode : filled.code = code := by rw [hfilled]
    have hdepth : filled.depth = ix.depth := by rw [hfilled]
    have hrun := linkCode_eq (hcode.symm ▸ hlink) (hcode.symm ▸ hle)
    rw [hdepth] at hrun
    have hreplaced : ((v.code.linked.find? fun f => f.key == region.start).all
        fun old => old.key == region.start) = true := by
      cases hfind : v.code.linked.find? fun f => f.key == region.start with
      | none => rfl
      | some old =>
          have := List.find?_some hfind
          simpa using this
    refine Or.inr ⟨e, filled.mutated code' ix.depth, c, hkey, hpayload, ?_, ?_, hlayout⟩
    · rw [← hfilled, hrun]
      simp only [hreplaced, Host.check_of_true]
    · refine leads_mutated h (by rw [hfilled]) (by rw [hfilled]) (by rw [hfilled]; rfl) ?_ ?_
        hchanged h.depth_refl
      · rintro _ ⟨⟩
        rw [hpayload]
      · rw [hfilled]
        show (host.note _).books =
          ix.host.books ++ [.tableTaken e.payload.owned, .slotFilled .code e.id]
        rw [Host.books_note_of_books _ rfl, hbooks, hbooks₀, List.append_assoc, hpayload]
        rfl

theorem registerDepth_spec (h : Sound ix v) (region : DepthRegion) :
    (∃ ix', ix.registerDepth region = (.error .allocation, ix') ∧ Leads ix v [] ix' v) ∨
    ∃ e ix' d, e.key = region.start ∧ e.payload = region.encode ∧
      ix.registerDepth region = (.ok (v.depth.linked.find? fun f => f.key == region.start), ix') ∧
      Leads ix v (arrival none (some e) ++ [.mutationBegun]) ix' (v.mutated 0 v.code d) ∧
      d.linked = v.depth.linked.filter (fun f => f.key < region.start) ++
        e :: v.depth.linked.filter (fun f => region.start < f.key) ∧
      d.retired =
        (v.depth.linked.find? fun f => f.key == region.start).toList ++ v.depth.retired := by
  unfold registerDepth
  rcases h.depth.register_cases h.depthReady ix.host region.start region.encode with
    ⟨host, halloc, hbooks⟩ |
    ⟨e, depth, depth', d, host, hkey, hpayload, halloc, hbooks, hlink, hle, hchanged, hlayout⟩
  · simp only [halloc]
    refine Or.inl ⟨_, rfl, .refl v, ?_, ?_, ?_, ?_⟩
    · exact ⟨h.code, h.depth, h.codeReady, h.depthReady, h.gate, h.closed, h.sealedEpoch, h.taken⟩
    · have hlog : (Event.depthRefused region.toSpan).channel ≠ .books := by rintro ⟨⟩
      exact (Host.books_note_of_not_books _ hlog).trans (hbooks.trans (List.append_nil _).symm)
    · exact .of_core rfl fun _ => rfl
    · exact .of_core rfl fun _ => rfl
  · simp only [halloc]
    obtain ⟨filled, hfilled⟩ : ∃ filled, filled =
        { ix with depth, host := host.note (.slotFilled .depth e.id) } := ⟨_, rfl⟩
    have hcode : filled.code = ix.code := by rw [hfilled]
    have hdepth : filled.depth = depth := by rw [hfilled]
    have hrun := linkDepth_eq (hdepth.symm ▸ hlink) (hdepth.symm ▸ hle)
    rw [hcode] at hrun
    refine Or.inr ⟨e, filled.mutated ix.code depth', d, hkey, hpayload, ?_, ?_, hlayout⟩
    · rw [← hfilled, hrun]
    · refine leads_mutated h (by rw [hfilled]) (by rw [hfilled]) (by rw [hfilled]; exact h.taken)
        (by rintro _ ⟨⟩) ?_ h.code_refl hchanged
      rw [hfilled]
      show (host.note _).books = _
      rw [Host.books_note_of_books _ rfl, hbooks]
      rfl

/-! ## Removing -/

theorem unlinkCode_spec (h : Sound ix v) (start : Addr) :
    (v.code.linked.find? (fun e => e.key == start) = none ∧ ix.unlinkCode start = (none, ix)) ∨
    ∃ e ix', v.code.linked.find? (fun e => e.key == start) = some e ∧
      ix.unlinkCode start = (some e.id, ix') ∧
      Leads ix v [.mutationBegun] ix' (v.mutated 0 (v.code.unlink start) v.depth) := by
  unfold unlinkCode
  rw [h.code.get?_eq]
  cases hfind : v.code.linked.find? fun e => e.key == start with
  | none => exact Or.inl ⟨rfl, rfl⟩
  | some e =>
      obtain ⟨code, hunlink, hchanged⟩ := h.code.unlink_changed h.codeReady start
      have hle : countOf (v.code.linked.find? fun e => e.key == start) ≤ ix.code.count := by
        rw [h.code.count]
        exact SkipList.countOf_find? v.code.linked _
      have hmut : (ix.mutate fun ix => ix.changeCode countOf fun code => code.unlink start) =
          (v.code.linked.find? fun e => e.key == start, ix.mutated code ix.depth) :=
        mutate_eq (changeCode_eq hunlink hle)
      refine Or.inr ⟨e, ix.mutated code ix.depth, rfl, ?_, leads_unlinked h hchanged h.depth_refl⟩
      simp only [hmut, hfind, Option.map_some]

theorem sweepDepths_spec (h : Sound ix v) (low high : Addr) :
    ∃ es ix' d, ix.sweepDepths low high = (es, ix') ∧
      es.Perm (v.depth.linked.filter fun e => low ≤ e.key && e.key ≤ high) ∧
      Leads ix v [.mutationBegun] ix' (v.mutated 0 v.code d) ∧
      d.linked = (v.depth.linked.filter fun e => !(low ≤ e.key && e.key ≤ high)) ∧
      d.retired = es.reverse ++ v.depth.retired ∧ d.sealed = v.depth.sealed := by
  obtain ⟨es, depth, d, hunlink, hchanged, hperm, hlinked, hretired⟩ :=
    h.depth.unlinkBetween_changed h.depthReady low high
  have hle : es.length ≤ ix.depth.count := by
    rw [hperm.length_eq, h.depth.count]
    exact List.length_filter_le ..
  exact ⟨es, ix.mutated ix.code depth, d, mutate_eq (changeDepth_eq hunlink hle), hperm,
    leads_unlinked h h.code_refl hchanged, hlinked, hretired, hchanged.mutated.sealed⟩

theorem unlinkEverything_spec (h : Sound ix v) :
    ∃ es ix' c d, ix.unlinkEverything = (es, ix') ∧ es.Perm v.code.linked ∧
      Leads ix v [.mutationBegun] ix' (v.mutated 0 c d) ∧ c.linked = [] ∧ d.linked = [] := by
  obtain ⟨es, code, c, hcode, hchanged, hperm, hc⟩ := h.code.unlinkAll_changed h.codeReady
  obtain ⟨fs, depth, d, hdepth, hchanged', hperm', hd⟩ := h.depth.unlinkAll_changed h.depthReady
  have hle : es.length ≤ ix.code.count := Nat.le_of_eq (by rw [hperm.length_eq, h.code.count])
  have hle' : fs.length ≤ ix.depth.count :=
    Nat.le_of_eq (by rw [hperm'.length_eq, h.depth.count])
  refine ⟨es, ix.mutated code depth, c, d, mutate_eq ?_, hperm,
    leads_unlinked h hchanged hchanged', hc, hd⟩
  have hchange : ix.beginMutation.changeCode List.length SkipList.unlinkAll =
      (es, { ix.beginMutation with code }) := changeCode_eq hcode hle
  have hchange' : ({ ix.beginMutation with code } : Index).changeDepth List.length
      SkipList.unlinkAll = (fs, { ix.beginMutation with code, depth }) := changeDepth_eq hdepth hle'
  simp only [hchange, hchange']

end Index

end JitIndex
