import JitIndex.Frame.Walk

/-!
# Decoding nested descriptors

A search through a frame table takes two shortcuts: it ends at the first
descriptor that starts too late, and it jumps over everything inlined into a
frame that stops too early. Neither loses a frame if the descriptors are
`Nested`: their starts are in order, and what a descriptor jumps over stops no
later than it does. Then a search from any descriptor on finds the first one
that covers the offset (`FrameTable.next?_nested`), so a listing gives every one
of them, in order (`FrameTable.framesFrom_eq`).

`FrameWalk.collect_eq` says that a walk lists what the search does, and
`FrameTable.shortcuts_lose_nothing` puts it all together.
-/

namespace JitIndex

namespace Descriptor

def covers (d : Descriptor) (rel : Nat) : Bool := d.start ≤ rel && rel < d.stop

/-- The descriptor of rank `i` leads on to the one of a later rank, or to the end, and jumps over
nothing that stops after it. -/
def Skips (ds : List Descriptor) (i : Nat) (d : Descriptor) : Prop :=
  ∃ j, d.skip = j * descriptorWords ∧ i < j ∧ j ≤ ds.length ∧
    ∀ k e, i < k → k < j → ds[k]? = some e → e.stop ≤ d.stop

/-- Descriptors that a search may take its shortcuts through. -/
structure Nested (ds : List Descriptor) : Prop where
  starts : ds.Pairwise fun d e => d.start ≤ e.start
  skips : ∀ i d, ds[i]? = some d → Skips ds i d

/-- What is needed to tell whether a descriptor leads on as it should. -/
theorem skips_iff {ds : List Descriptor} {i : Nat} {d : Descriptor} :
    Skips ds i d ↔ d.skip / descriptorWords * descriptorWords = d.skip ∧
      i < d.skip / descriptorWords ∧ d.skip / descriptorWords ≤ ds.length ∧
      ∀ e ∈ (ds.take (d.skip / descriptorWords)).drop (i + 1), e.stop ≤ d.stop := by
  have hmem : ∀ j e, e ∈ (ds.take j).drop (i + 1) ↔ ∃ k, i < k ∧ k < j ∧ ds[k]? = some e := by
    intro j e
    simp only [List.mem_iff_getElem?, List.getElem?_drop, List.getElem?_take]
    constructor
    · rintro ⟨k, hk⟩
      split at hk
      · exact ⟨i + 1 + k, by omega, by assumption, hk⟩
      · cases hk
    · rintro ⟨k, hik, hkj, hk⟩
      refine ⟨k - (i + 1), ?_⟩
      rw [show i + 1 + (k - (i + 1)) = k by omega, if_pos hkj, hk]
  constructor
  · rintro ⟨j, hskip, hij, hj, hinner⟩
    have hrank : d.skip / descriptorWords = j := by
      rw [hskip]
      exact Nat.mul_div_cancel j (by decide)
    rw [hrank]
    refine ⟨hskip.symm, hij, hj, fun e he => ?_⟩
    obtain ⟨k, hik, hkj, hk⟩ := (hmem j e).mp he
    exact hinner k e hik hkj hk
  · rintro ⟨hskip, hij, hj, hinner⟩
    refine ⟨_, hskip.symm, hij, hj, fun k e hik hkj hk => ?_⟩
    exact hinner e ((hmem _ e).mpr ⟨k, hik, hkj, hk⟩)

instance (ds : List Descriptor) (i : Nat) (d : Descriptor) : Decidable (Skips ds i d) :=
  decidable_of_iff _ skips_iff.symm

instance (ds : List Descriptor) : Decidable (Nested ds) :=
  decidable_of_iff ((ds.Pairwise fun d e => d.start ≤ e.start) ∧ ∀ d ∈ ds.zipIdx, Skips ds d.2 d.1)
    ⟨fun h => ⟨h.1, fun i d hd => h.2 (d, i) (List.mem_zipIdx_iff_getElem?.mpr hd)⟩,
      fun h => ⟨h.starts, fun d hd => h.skips d.2 d.1 (List.mem_zipIdx_iff_getElem?.mp hd)⟩⟩

/-! ## What covers an offset -/

/-- The descriptors from a rank on that cover an offset, each with its rank. -/
def coveringFrom (ds : List Descriptor) (rel i : Nat) : List (Descriptor × Nat) :=
  (ds.zipIdx.drop i).filter fun d => d.1.covers rel

variable {ds : List Descriptor} {rel i j : Nat} {d : Descriptor}

theorem map_coveringFrom (ds : List Descriptor) (rel i : Nat) :
    (coveringFrom ds rel i).map (·.1) = (ds.drop i).filter (·.covers rel) := by
  have hdrop : ds.drop i = (ds.zipIdx.drop i).map (·.1) := by
    rw [List.map_drop, List.zipIdx_map_fst]
  rw [hdrop, List.filter_map]
  rfl

theorem coveringFrom_none (hd : ds[i]? = none) : coveringFrom ds rel i = [] := by
  have hlen : ds.zipIdx.length ≤ i := by
    rw [List.length_zipIdx]
    exact List.getElem?_eq_none_iff.mp hd
  rw [coveringFrom, List.drop_eq_nil_of_le hlen, List.filter_nil]

theorem coveringFrom_some (hd : ds[i]? = some d) : coveringFrom ds rel i =
    if d.covers rel then (d, i) :: coveringFrom ds rel (i + 1)
    else coveringFrom ds rel (i + 1) := by
  obtain ⟨hi, hget⟩ := List.getElem?_eq_some_iff.mp hd
  have hi' : i < ds.zipIdx.length := by rwa [List.length_zipIdx]
  rw [coveringFrom, List.drop_eq_getElem_cons hi', List.filter_cons, List.getElem_zipIdx, hget,
    Nat.zero_add]
  rfl

/-- What is passed over without loss may be jumped over. -/
theorem coveringFrom_jump (hij : i ≤ j)
    (hpassed : ∀ k e, i ≤ k → k < j → ds[k]? = some e → e.covers rel = false) :
    coveringFrom ds rel i = coveringFrom ds rel j := by
  induction hij with
  | refl => rfl
  | @step j hij ih =>
      rw [ih fun k e hik hkj => hpassed k e hik (Nat.lt_succ_of_lt hkj)]
      cases hd : ds[j]? with
      | none =>
          rw [coveringFrom_none hd, coveringFrom_none]
          exact List.getElem?_eq_none (Nat.le_succ_of_le (List.getElem?_eq_none_iff.mp hd))
      | some d => rw [coveringFrom_some hd, hpassed j d hij (Nat.lt_succ_self j) hd]; rfl

/-- What is left behind the first descriptor that covers the offset. -/
theorem coveringFrom_eq_cons {found : Descriptor × Nat} {rest : List (Descriptor × Nat)}
    (h : coveringFrom ds rel i = found :: rest) :
    i ≤ found.2 ∧ found.2 < ds.length ∧ rest = coveringFrom ds rel (found.2 + 1) := by
  induction hm : ds.length - i using Nat.strongRecOn generalizing i with
  | ind m ih =>
      subst hm
      cases hd : ds[i]? with
      | none =>
          rw [coveringFrom_none hd] at h
          cases h
      | some d =>
          have hi := (List.getElem?_eq_some_iff.mp hd).1
          rw [coveringFrom_some hd] at h
          split at h
          · cases h
            exact ⟨Nat.le_refl i, hi, rfl⟩
          · obtain ⟨hle, hrest⟩ := ih (ds.length - (i + 1)) (by omega) h rfl
            exact ⟨Nat.le_of_succ_le hle, hrest⟩

/-- Behind a descriptor that starts too late, all do. -/
theorem Nested.coveringFrom_late (hn : Nested ds) (hd : ds[i]? = some d) (hlate : rel < d.start) :
    coveringFrom ds rel i = [] := by
  obtain ⟨hi, hget⟩ := List.getElem?_eq_some_iff.mp hd
  have hsorted := hn.starts.sublist (List.drop_sublist i ds)
  rw [List.drop_eq_getElem_cons hi, hget] at hsorted
  rw [← List.map_eq_nil_iff, map_coveringFrom, List.drop_eq_getElem_cons hi, hget,
    List.filter_eq_nil_iff]
  intro e he
  have hle : d.start ≤ e.start := by
    rcases List.mem_cons.mp he with rfl | he
    · exact Nat.le_refl _
    · exact (List.pairwise_cons.mp hsorted).1 e he
  simp only [covers, Bool.and_eq_true, decide_eq_true_eq]
  omega

end Descriptor

namespace FrameTable

/-! ## Whole descriptors -/

theorem length_flatMap_words (ds : List Descriptor) :
    (ds.flatMap Descriptor.words).length = ds.length * descriptorWords := by
  induction ds with
  | nil => rfl
  | cons d ds ih =>
      rw [List.flatMap_cons, List.length_append, ih, List.length_cons]
      simp only [Descriptor.words, List.length_cons, List.length_nil, descriptorWords]
      omega

theorem size_ofDescriptors (ds : List Descriptor) :
    (ofDescriptors ds).size = ds.length * descriptorWords := length_flatMap_words ds

theorem getElem?_flatMap_words : ∀ (ds : List Descriptor) (i k : Nat), k < descriptorWords →
    (ds.flatMap Descriptor.words)[i * descriptorWords + k]? = ds[i]?.bind fun d => d.words[k]?
  | [], _, _, _ => rfl
  | d :: ds, 0, k, hk => by
      rw [List.flatMap_cons, Nat.zero_mul, Nat.zero_add, List.getElem?_append_left hk]
      rfl
  | d :: ds, i + 1, k, hk => by
      have hlen : d.words.length = descriptorWords := rfl
      rw [List.flatMap_cons, List.getElem?_append_right (by rw [hlen, Nat.succ_mul]; omega),
        show (i + 1) * descriptorWords + k - d.words.length = i * descriptorWords + k by
          rw [hlen, Nat.succ_mul]; omega,
        getElem?_flatMap_words ds i k hk]
      rfl

/-- The words of a descriptor are found where its rank says. -/
theorem descriptorAt?_ofDescriptors (ds : List Descriptor) (i : Nat) :
    (ofDescriptors ds).descriptorAt? (i * descriptorWords) = ds[i]? := by
  have hsize : (ofDescriptors ds).words.size = ds.length * descriptorWords := size_ofDescriptors ds
  have hword : ∀ k < descriptorWords, (ofDescriptors ds).words[i * descriptorWords + k]? =
      ds[i]?.bind fun d => d.words[k]? := fun k hk =>
    List.getElem?_toArray.trans (getElem?_flatMap_words ds i k hk)
  unfold descriptorAt?
  split
  · rename_i hin
    have hi : i < ds.length := by
      rw [hsize, descriptorWords] at hin
      omega
    have hd := List.getElem?_eq_getElem hi
    generalize ds[i] = d at hd
    rw [hd] at hword ⊢
    have h0 := hword 0 (by decide)
    have h1 := hword 1 (by decide)
    have h2 := hword 2 (by decide)
    have h3 := hword 3 (by decide)
    simp only [Nat.add_zero, Array.getElem?_eq_some_iff, Option.bind_some, Descriptor.words,
      List.getElem?_cons_zero, List.getElem?_cons_succ] at h0 h1 h2 h3
    obtain ⟨_, h0⟩ := h0
    obtain ⟨_, h1⟩ := h1
    obtain ⟨_, h2⟩ := h2
    obtain ⟨_, h3⟩ := h3
    simp only [h0, h1, h2, h3]
  · rename_i hout
    refine (List.getElem?_eq_none ?_).symm
    rw [hsize, descriptorWords] at hout
    omega

/-! ## Listing -/

theorem framesFrom_cons {t : FrameTable} {rel cursor c : Nat} {f : FrameId}
    (h : t.next? rel cursor = some (f, c)) : t.framesFrom rel cursor = f :: t.framesFrom rel c := by
  rw [framesFrom]
  split
  · rename_i hnone
    rw [hnone] at h
    cases h
  · rename_i hsome
    rw [hsome] at h
    cases h
    rfl

theorem framesFrom_nil {t : FrameTable} {rel cursor : Nat} (h : t.next? rel cursor = none) :
    t.framesFrom rel cursor = [] := by
  rw [framesFrom]
  split
  · rfl
  · rename_i hsome
    rw [hsome] at h
    cases h

variable {ds : List Descriptor}

/-! ## Searching -/

/-- A search from a descriptor on finds the first one that covers the offset, and goes on behind
it. -/
theorem next?_nested (hn : Descriptor.Nested ds) (rel i : Nat) :
    (ofDescriptors ds).next? rel (i * descriptorWords) =
      (Descriptor.coveringFrom ds rel i).head?.map fun d =>
        (d.1.frame, (d.2 + 1) * descriptorWords) := by
  induction hm : ds.length - i using Nat.strongRecOn generalizing i with
  | ind m ih =>
      subst hm
      rw [next?_eq, descriptorAt?_ofDescriptors]
      cases hd : ds[i]? with
      | none => rw [Descriptor.coveringFrom_none hd]; rfl
      | some d =>
          have hi := (List.getElem?_eq_some_iff.mp hd).1
          by_cases hstart : rel < d.start
          · rw [hn.coveringFrom_late hd hstart]
            exact if_pos hstart
          · by_cases hstop : rel < d.stop
            · have hcovers : d.covers rel = true := by
                simp only [Descriptor.covers, Bool.and_eq_true, decide_eq_true_eq]
                omega
              rw [Descriptor.coveringFrom_some hd, if_pos hcovers, List.head?_cons, Option.map_some,
                Nat.succ_mul]
              simp only [if_neg hstart, if_pos hstop]
            · -- the search jumps over what is inlined into this frame
              obtain ⟨j, hskip, hij, hj, hinner⟩ := hn.skips i d hd
              have hforward : ¬ d.skip ≤ i * descriptorWords := by
                rw [hskip]
                exact Nat.not_le_of_lt (Nat.mul_lt_mul_of_pos_right hij (by decide))
              have hpassed : ∀ k e, i ≤ k → k < j → ds[k]? = some e → e.covers rel = false := by
                intro k e hik hkj he
                have hle : e.stop ≤ d.stop := by
                  rcases Nat.eq_or_lt_of_le hik with rfl | hlt
                  · exact Nat.le_of_eq (congrArg _ (Option.some.inj (he.symm.trans hd)))
                  · exact hinner k e hlt hkj he
                simp only [Descriptor.covers, Bool.and_eq_false_iff, decide_eq_false_iff_not]
                omega
              rw [Descriptor.coveringFrom_jump (Nat.le_of_lt hij) hpassed,
                ← ih (ds.length - j) (by omega) j rfl, ← hskip]
              simp only [if_neg hstart, if_neg hstop, if_neg hforward]

/-- A listing from a descriptor on gives the frames that cover the offset, in order. -/
theorem framesFrom_eq (hn : Descriptor.Nested ds) (rel i : Nat) :
    (ofDescriptors ds).framesFrom rel (i * descriptorWords) =
      ((ds.drop i).filter (·.covers rel)).map (·.frame) := by
  rw [← Descriptor.map_coveringFrom, List.map_map]
  induction hm : ds.length - i using Nat.strongRecOn generalizing i with
  | ind m ih =>
      subst hm
      have hnext := next?_nested hn rel i
      cases hfound : Descriptor.coveringFrom ds rel i with
      | nil =>
          rw [hfound] at hnext
          exact framesFrom_nil hnext
      | cons d rest =>
          obtain ⟨hle, hlt, hrest⟩ := Descriptor.coveringFrom_eq_cons hfound
          rw [hfound] at hnext
          rw [framesFrom_cons hnext, ih (ds.length - (d.2 + 1)) (by omega) (d.2 + 1) rfl, ← hrest]
          rfl

end FrameTable

/-- A walk lists what the search finds. -/
theorem FrameWalk.collect_eq (w : FrameWalk) : w.collect.1 = w.table.framesFrom w.rel w.cursor := by
  induction w using FrameWalk.collect.induct with
  | case1 w w' hstep =>
      have hnone : w.table.next? w.rel w.cursor = none := by
        unfold FrameWalk.step at hstep
        split at hstep
        · cases hstep
        · assumption
      rw [FrameTable.framesFrom_nil hnone, collect]
      split
      · rfl
      · rename_i h
        rw [hstep] at h
        cases h
  | case2 w f w' hstep fs last _ ih =>
      obtain ⟨c, hnext, rfl⟩ : ∃ c, w.table.next? w.rel w.cursor = some (f, c) ∧
          { w with cursor := c } = w' := by
        unfold FrameWalk.step at hstep
        split at hstep
        · rename_i g c hn
          cases hstep
          exact ⟨c, hn, rfl⟩
        · cases hstep
      rw [FrameTable.framesFrom_cons hnext, ← ih, collect]
      split
      · rename_i h
        rw [hstep] at h
        cases h
      · rename_i h
        rw [hstep] at h
        cases h
        rfl

namespace FrameTable

/-- The shortcuts lose nothing. From any descriptor on a search finds the first one that covers the
offset and goes on behind it; searching again and again lists all of them, in order, and so does a
walk. -/
theorem shortcuts_lose_nothing {ds : List Descriptor} (hn : Descriptor.Nested ds) (rel c : Nat) :
    (ofDescriptors ds).next? rel (c * descriptorWords) =
        ((Descriptor.coveringFrom ds rel c).head?.map fun d =>
          (d.1.frame, (d.2 + 1) * descriptorWords)) ∧
      (ofDescriptors ds).framesFrom rel (c * descriptorWords) =
        ((ds.drop c).filter (·.covers rel)).map (·.frame) ∧
      (⟨ofDescriptors ds, rel, c * descriptorWords⟩ : FrameWalk).collect.1 =
        ((ds.drop c).filter (·.covers rel)).map (·.frame) :=
  ⟨next?_nested hn rel c, framesFrom_eq hn rel c,
    (FrameWalk.collect_eq _).trans (framesFrom_eq hn rel c)⟩

/-- A search for an offset in the second half of a frame jumps over what is inlined into its first
half, also if it is resumed there. -/
theorem first_half_skipped :
    let ds : List Descriptor :=
      [⟨⟨1⟩, 0, 20, 16⟩, ⟨⟨2⟩, 0, 10, 12⟩, ⟨⟨3⟩, 2, 4, 12⟩, ⟨⟨4⟩, 10, 20, 16⟩]
    Descriptor.Nested ds ∧ (ofDescriptors ds).next? 15 4 = some (⟨4⟩, 16) ∧
      (ofDescriptors ds).framesFrom 15 0 = [⟨1⟩, ⟨4⟩] ∧
      (⟨ofDescriptors ds, 15, 4⟩ : FrameWalk).collect.1 = [⟨4⟩] := by
  intro ds
  have hn : Descriptor.Nested ds := by decide
  exact ⟨hn, (shortcuts_lose_nothing hn 15 1).1, (shortcuts_lose_nothing hn 15 0).2.1,
    (shortcuts_lose_nothing hn 15 1).2.2⟩

end FrameTable

end JitIndex
