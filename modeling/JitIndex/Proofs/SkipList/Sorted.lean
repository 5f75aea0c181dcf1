import JitIndex.SkipList.Basic

/-!
# Sorted entries

What is linked is sorted: the keys rise along the list, so no two entries have
the same key. Then every search is about the same few facts. A key has one
entry at most (`find?_eq_some_iff_mem`), the greatest key up to an address is
the last one (`getLast?_eq_some_iff`), and the least key is the first one
(`head?_eq_some_iff`). Entries that pass a test come before those that do not
if the test is `Early`, and a key splits the entries into those below it, its
own, and those above (`split_at_key`).
-/

namespace JitIndex

namespace SkipList

universe u

variable {α : Type u} {es : List (Entry α)}

abbrev Sorted (es : List (Entry α)) : Prop := es.Pairwise fun a b => a.key < b.key

/-! ## Splitting -/

/-- A test that an entry passes if a later one does. -/
def Early (passes : Addr → Bool) : Prop := ∀ a b, a < b → passes b = true → passes a = true

theorem early_le (key : Addr) : Early fun a => decide (a ≤ key) := by
  intro a b hab hb
  simp only [decide_eq_true_eq] at hb ⊢
  exact UInt64.le_of_lt (UInt64.lt_of_lt_of_le hab hb)

theorem early_lt (key : Addr) : Early fun a => decide (a < key) := by
  intro a b hab hb
  simp only [decide_eq_true_eq] at hb ⊢
  exact UInt64.lt_trans hab hb

/-- Sorted entries are those that pass, followed by those that do not. -/
theorem filter_append_filter_not {passes : Addr → Bool} (hp : Early passes) :
    ∀ {es : List (Entry α)}, Sorted es →
      es = es.filter (fun e => passes e.key) ++ es.filter (fun e => !passes e.key)
  | [], _ => rfl
  | e :: es, hs => by
      obtain ⟨hlt, hs'⟩ := List.pairwise_cons.mp hs
      by_cases he : passes e.key = true
      · simp only [List.filter_cons, he, if_true, Bool.not_true, Bool.false_eq_true, if_false,
          List.cons_append]
        rw [← filter_append_filter_not hp hs']
      · have hnone : es.filter (fun e => passes e.key) = [] := by
          rw [List.filter_eq_nil_iff]
          exact fun f hf hpf => he (hp _ _ (hlt f hf) hpf)
        have hall : es.filter (fun e => !passes e.key) = es := by
          rw [List.filter_eq_self]
          intro f hf
          have := List.filter_eq_nil_iff.mp hnone f hf
          simpa using this
        simp [he, hnone, hall]

/-! ## Finding a key -/

theorem find?_key : ∀ {es : List (Entry α)}, Sorted es → ∀ {e : Entry α}, e ∈ es →
    es.find? (fun f => f.key == e.key) = some e
  | [], _, _, he => absurd he List.not_mem_nil
  | a :: es, hs, e, he => by
      obtain ⟨hlt, hs'⟩ := List.pairwise_cons.mp hs
      rcases List.mem_cons.mp he with rfl | he
      · simp
      · have hne : a.key ≠ e.key := fun heq => UInt64.lt_irrefl _ (heq ▸ hlt e he)
        rw [List.find?_cons_of_neg (by simpa using hne)]
        exact find?_key hs' he

theorem find?_filter_key (q : Addr → Bool) (a : Addr) :
    (es.filter fun e => q e.key).find? (fun e => e.key == a) =
      if q a then es.find? (fun e => e.key == a) else none := by
  induction es with
  | nil => simp
  | cons e es ih =>
      by_cases ha : e.key = a
      · subst ha
        by_cases hq : q e.key = true
        · simp [hq]
        · simp only [List.filter_cons, hq, Bool.false_eq_true, if_false, ih]
      · have hbeq : (e.key == a) = false := by simpa using ha
        by_cases hq : q e.key = true
        · simp only [List.filter_cons, hq, if_true, List.find?_cons, hbeq, ih]
        · simp only [List.filter_cons, hq, Bool.false_eq_true, if_false, ih, List.find?_cons, hbeq]

/-- A new entry is found under its key, and all others under theirs. -/
theorem find?_insert (es : List (Entry α)) (e : Entry α) (a : Addr) :
    (es.filter (fun f => f.key < e.key) ++ e :: es.filter fun f => e.key < f.key).find?
        (fun f => f.key == a) =
      if a = e.key then some e else es.find? fun f => f.key == a := by
  rw [List.find?_append, List.find?_cons,
    find?_filter_key (fun k => decide (k < e.key)), find?_filter_key fun k => decide (e.key < k)]
  by_cases ha : a = e.key
  · subst ha
    simp
  · have hbeq : (e.key == a) = false := by simpa using Ne.symm ha
    simp only [hbeq, ha, if_false]
    rcases UInt64.lt_or_lt_of_ne ha with h | h
    · have hnot : ¬ e.key < a := UInt64.lt_asymm h
      simp [h, hnot]
    · have hnot : ¬ a < e.key := UInt64.lt_asymm h
      simp [h, hnot]

section

variable (hs : Sorted es)
include hs

theorem find?_eq_some_iff_mem {e : Entry α} {a : Addr} :
    es.find? (fun f => f.key == a) = some e ↔ e ∈ es ∧ e.key = a := by
  constructor
  · intro h
    exact ⟨List.mem_of_find?_eq_some h, by simpa using List.find?_some h⟩
  · rintro ⟨he, rfl⟩
    exact find?_key hs he

/-- One key stands for one entry. -/
theorem eq_of_key {e f : Entry α} (he : e ∈ es) (hf : f ∈ es) (hkey : e.key = f.key) : e = f := by
  have hfind := find?_key hs he
  rw [hkey, find?_key hs hf] at hfind
  exact (Option.some.inj hfind).symm

/-! ## The last key and the first one -/

theorem le_getLast? {e last : Entry α} (hlast : es.getLast? = some last) (he : e ∈ es) :
    e.key ≤ last.key := by
  obtain ⟨init, rfl⟩ := List.getLast?_eq_some_iff.mp hlast
  rcases List.mem_append.mp he with he | he
  · exact UInt64.le_of_lt ((List.pairwise_append.mp hs).2.2 e he last (List.mem_singleton_self _))
  · rw [List.mem_singleton.mp he]
    exact UInt64.le_refl _

/-- What lies behind the last key lies behind all of them. -/
theorem lt_of_getLast?_lt {e : Entry α} {a : Addr} (hlast : ∀ k ∈ es.getLast?.map (·.key), k < a)
    (he : e ∈ es) : e.key < a := by
  obtain ⟨last, hlast'⟩ : ∃ last, es.getLast? = some last :=
    ⟨_, List.getLast?_eq_some_getLast (List.ne_nil_of_mem he)⟩
  exact UInt64.lt_of_le_of_lt (le_getLast? hs hlast' he) (hlast last.key (by rw [hlast']; rfl))

/-- The last entry up to an address has the greatest key up to there. -/
theorem getLast?_eq_some_iff {e : Entry α} {a : Addr} :
    (es.filter fun f => f.key ≤ a).getLast? = some e ↔
      e ∈ es ∧ e.key ≤ a ∧ ∀ f ∈ es, f.key ≤ a → f.key ≤ e.key := by
  have hs' : Sorted (es.filter fun f => f.key ≤ a) := hs.sublist List.filter_sublist
  constructor
  · intro h
    obtain ⟨he, hle⟩ := List.mem_filter.mp (List.mem_of_getLast? h)
    refine ⟨he, by simpa using hle, fun f hf hfa => ?_⟩
    exact le_getLast? hs' h (List.mem_filter.mpr ⟨hf, decide_eq_true hfa⟩)
  · rintro ⟨he, hle, hgreatest⟩
    have hmem : e ∈ es.filter fun f => decide (f.key ≤ a) :=
      List.mem_filter.mpr ⟨he, decide_eq_true hle⟩
    obtain ⟨last, hlast⟩ : ∃ last, (es.filter fun f => decide (f.key ≤ a)).getLast? = some last :=
      ⟨_, List.getLast?_eq_some_getLast (List.ne_nil_of_mem hmem)⟩
    have hlastMem := List.mem_filter.mp (List.mem_of_getLast? hlast)
    have hkey : last.key = e.key := UInt64.le_antisymm
      (hgreatest last hlastMem.1 (by simpa using hlastMem.2)) (le_getLast? hs' hlast hmem)
    rw [hlast, ← find?_key hs he, ← hkey, find?_key hs hlastMem.1]

theorem getLast?_filter_le (key : Addr) :
    (es.filter fun e => e.key ≤ key).getLast?.filter (fun e => e.key == key) =
      es.find? fun e => e.key == key := by
  ext e
  rw [Option.filter_eq_some_iff, getLast?_eq_some_iff hs, find?_eq_some_iff_mem hs, beq_iff_eq]
  constructor
  · rintro ⟨⟨he, -⟩, hkey⟩
    exact ⟨he, hkey⟩
  · rintro ⟨he, rfl⟩
    exact ⟨⟨he, UInt64.le_refl _, fun f _ hle => hle⟩, rfl⟩

theorem head?_eq_some_iff {e : Entry α} :
    es.head? = some e ↔ e ∈ es ∧ ∀ f ∈ es, e.key ≤ f.key := by
  cases es with
  | nil => simp
  | cons a es =>
      obtain ⟨hlt, -⟩ := List.pairwise_cons.mp hs
      constructor
      · intro h
        obtain rfl := Option.some.inj h
        refine ⟨List.mem_cons_self .., fun f hf => ?_⟩
        rcases List.mem_cons.mp hf with rfl | hf
        · exact UInt64.le_refl _
        · exact UInt64.le_of_lt (hlt f hf)
      · rintro ⟨he, hleast⟩
        rcases List.mem_cons.mp he with rfl | he
        · rfl
        · have hle := hleast a (List.mem_cons_self ..)
          exact absurd (UInt64.lt_of_lt_of_le (hlt e he) hle) (UInt64.lt_irrefl _)

/-- The first entry that is not below a key has it, if one does. -/
theorem head?_filter_eq_find? (key : Addr) :
    (es.filter fun e => !decide (e.key < key)).head?.filter (fun e => e.key == key) =
      es.find? fun e => e.key == key := by
  ext e
  have hs' : Sorted (es.filter fun e => !decide (e.key < key)) := hs.sublist List.filter_sublist
  rw [Option.filter_eq_some_iff, head?_eq_some_iff hs', find?_eq_some_iff_mem hs, beq_iff_eq]
  simp only [List.mem_filter, Bool.not_eq_true', decide_eq_false_iff_not]
  constructor
  · rintro ⟨⟨⟨he, -⟩, -⟩, hkey⟩
    exact ⟨he, hkey⟩
  · rintro ⟨he, rfl⟩
    exact ⟨⟨⟨he, UInt64.lt_irrefl _⟩, fun f hf => UInt64.not_lt.mp hf.2⟩, rfl⟩

end

/-! ## Splitting at a key -/

/-- Sorted entries are those below a key, the one with the key, and those above it. -/
theorem split_at_key (key : Addr) : ∀ {es : List (Entry α)}, Sorted es →
    es = es.filter (fun e => e.key < key) ++
      ((es.find? fun e => e.key == key).toList ++ es.filter fun e => key < e.key)
  | [], _ => rfl
  | e :: es, hs => by
      obtain ⟨hlt, hs'⟩ := List.pairwise_cons.mp hs
      by_cases hkey : e.key = key
      · subst hkey
        have hlow : es.filter (fun f => decide (f.key < e.key)) = [] := by
          rw [List.filter_eq_nil_iff]
          exact fun f hf => by simpa using UInt64.le_of_lt (hlt f hf)
        have hhigh : es.filter (fun f => decide (e.key < f.key)) = es := by
          rw [List.filter_eq_self]
          exact fun f hf => decide_eq_true (hlt f hf)
        simp [hlow, hhigh]
      · rcases UInt64.lt_or_lt_of_ne hkey with hbelow | habove
        · have hnot : ¬ key < e.key := UInt64.lt_asymm hbelow
          rw [List.find?_cons_of_neg (by simpa using hkey)]
          simp only [List.filter_cons, hbelow, hnot, decide_true, decide_false, if_true,
            Bool.false_eq_true, if_false, List.cons_append]
          rw [← split_at_key key hs']
        · -- all of them are above the key
          have hall : ∀ f ∈ e :: es, key < f.key := by
            intro f hf
            rcases List.mem_cons.mp hf with rfl | hf
            · exact habove
            · exact UInt64.lt_trans habove (hlt f hf)
          have hlow : (e :: es).filter (fun f => decide (f.key < key)) = [] := by
            rw [List.filter_eq_nil_iff]
            exact fun f hf => by simpa using UInt64.le_of_lt (hall f hf)
          have hnone : (e :: es).find? (fun f => f.key == key) = none := by
            rw [List.find?_eq_none]
            exact fun f hf => by simpa using (UInt64.ne_of_lt (hall f hf)).symm
          have hhigh : (e :: es).filter (fun f => decide (key < f.key)) = e :: es := by
            rw [List.filter_eq_self]
            exact fun f hf => decide_eq_true (hall f hf)
          rw [hlow, hnone, hhigh]
          rfl

/-- Entries with other keys are those below and those above. -/
theorem filter_ne_eq (hs : Sorted es) (key : Addr) :
    es.filter (fun e => e.key != key) =
      es.filter (fun e => e.key < key) ++ es.filter fun e => key < e.key := by
  conv =>
    lhs
    rw [split_at_key key hs]
  have hkey : (es.find? fun e => e.key == key).toList.filter (fun e => e.key != key) = [] := by
    rw [List.filter_eq_nil_iff]
    intro e he
    have := List.find?_some (Option.mem_toList.mp he)
    simpa using this
  rw [List.filter_append, List.filter_append, hkey, List.nil_append]
  congr 1
  · rw [List.filter_eq_self]
    intro e he
    have hlt : e.key < key := by simpa using (List.mem_filter.mp he).2
    simpa using UInt64.ne_of_lt hlt
  · rw [List.filter_eq_self]
    intro e he
    have hlt : key < e.key := by simpa using (List.mem_filter.mp he).2
    simpa using (UInt64.ne_of_lt hlt).symm

end SkipList

end JitIndex
