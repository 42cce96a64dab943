import Mathlib.Data.List.Nodup
import Mathlib.Data.Prod.Basic

/-!
# Lists of what is found at sites

A check that collects diagnostics should report every problem once and nothing else.  Equal problems
may occur several times, so this is more than a matter of membership: what is found is told apart by
its site.  The ways in which checks go through lists, and lists of lists, carry over to the sites.

* `Enumerates` — entries with distinct sites that are everything there is at any site.
* `Lists` — a list holds what there is at the sites, each thing as often as there are sites of it.
* `Lists.filterMap`, `Lists.flatMap`, … — how lists are made from others.
* `Staged` — the sites come in stages, one after the other.
* `Staged.mergeSort` — sorting by a key keeps the stages in order where the keys are equal.
-/

set_option autoImplicit false
namespace KarelRobot

variable {σ τ α β : Type} {At At' : σ → α → Prop} {xs ys : List α}

/-- The entries have distinct sites, and they are everything that there is at any site. -/
structure Enumerates (At : σ → α → Prop) (entries : List (σ × α)) : Prop where
  nodup : (entries.map Prod.fst).Nodup
  mem_iff : ∀ site a, (site, a) ∈ entries ↔ At site a

/-- The list holds what there is at the sites, once for each of them. -/
def Lists (At : σ → α → Prop) (xs : List α) : Prop :=
  ∃ entries, Enumerates At entries ∧ entries.map Prod.snd = xs

theorem Enumerates.append {entries entries' : List (σ × α)} (h : Enumerates At entries)
    (h' : Enumerates At' entries') (hdisjoint : ∀ site a b, At site a → ¬ At' site b) :
    Enumerates (fun site a => At site a ∨ At' site a) (entries ++ entries') where
  nodup := by
    rw [List.map_append, List.nodup_append]
    refine ⟨h.nodup, h'.nodup, fun site hsite site' hsite' heq => ?_⟩
    obtain ⟨⟨site, a⟩, ha, rfl⟩ := List.mem_map.1 hsite
    obtain ⟨⟨site', b⟩, hb, rfl⟩ := List.mem_map.1 hsite'
    obtain rfl : site = site' := heq
    exact hdisjoint site a b ((h.mem_iff _ _).1 ha) ((h'.mem_iff _ _).1 hb)
  mem_iff site a := by rw [List.mem_append, h.mem_iff, h'.mem_iff]

namespace Lists

theorem mem_iff (h : Lists At xs) {a : α} : a ∈ xs ↔ ∃ site, At site a := by
  obtain ⟨entries, h, rfl⟩ := h
  simp [← h.mem_iff]

theorem congr (h : Lists At xs) (hiff : ∀ site a, At site a ↔ At' site a) : Lists At' xs := by
  obtain ⟨entries, h, hxs⟩ := h
  exact ⟨entries, ⟨h.nodup, fun site a => (h.mem_iff site a).trans (hiff site a)⟩, hxs⟩

theorem nil (h : ∀ site a, ¬ At site a) : Lists At [] :=
  ⟨[], ⟨List.nodup_nil, fun site a => by simpa using h site a⟩, rfl⟩

theorem single (site : σ) (a : α) : Lists (fun s b => s = site ∧ b = a) [a] :=
  ⟨[(site, a)], ⟨List.nodup_singleton _, fun s b => by simp⟩, rfl⟩

theorem toList (site : σ) (x : Option α) : Lists (fun s b => s = site ∧ x = some b) x.toList := by
  cases x with
  | none => exact nil (by simp)
  | some a => exact (single site a).congr (by simp [eq_comm])

theorem append (h : Lists At xs) (h' : Lists At' ys)
    (hdisjoint : ∀ site a b, At site a → ¬ At' site b) :
    Lists (fun site a => At site a ∨ At' site a) (xs ++ ys) := by
  obtain ⟨entries, h, rfl⟩ := h
  obtain ⟨entries', h', rfl⟩ := h'
  exact ⟨entries ++ entries', h.append h' hdisjoint, List.map_append⟩

/-- Sites may get other names. -/
theorem relabel (h : Lists At xs) {g : σ → τ} (hg : Function.Injective g) :
    Lists (fun label a => ∃ site, g site = label ∧ At site a) xs := by
  obtain ⟨entries, h, rfl⟩ := h
  refine ⟨entries.map (Prod.map g id), ⟨?_, fun label a => ?_⟩, by simp⟩
  · have hsites : (entries.map (Prod.map g id)).map Prod.fst = (entries.map Prod.fst).map g := by
      rw [List.map_map, List.map_map]
      rfl
    rw [hsites]
    exact h.nodup.map hg
  · simp only [List.mem_map, Prod.exists, Prod.map_apply, id_eq, Prod.mk.injEq, h.mem_iff]
    exact ⟨fun ⟨site, b, hb, hlabel, heq⟩ => ⟨site, hlabel, heq ▸ hb⟩,
      fun ⟨site, hlabel, ha⟩ => ⟨site, a, ha, hlabel, rfl⟩⟩

theorem filterMap (h : Lists At xs) (f : α → Option β) :
    Lists (fun site b => ∃ a, At site a ∧ f a = some b) (xs.filterMap f) := by
  obtain ⟨entries, h, rfl⟩ := h
  have hsites : ((entries.filterMap fun e => (f e.2).map (e.1, ·)).map Prod.fst).Sublist
      (entries.map Prod.fst) := by
    clear h
    induction entries with
    | nil => exact .slnil
    | cons e entries ih =>
      cases hvalue : f e.2 with
      | none =>
        rw [List.filterMap_cons_none (by rw [hvalue]; rfl)]
        exact ih.cons _
      | some b =>
        rw [List.filterMap_cons_some (by rw [hvalue]; rfl)]
        exact ih.cons_cons _
  refine ⟨_, ⟨h.nodup.sublist hsites, fun site b => ?_⟩, ?_⟩
  · simp only [List.mem_filterMap, Option.map_eq_some_iff, Prod.mk.injEq, Prod.exists, h.mem_iff]
    constructor
    · rintro ⟨site', a, ha, b', hb, rfl, rfl⟩
      exact ⟨a, ha, hb⟩
    · rintro ⟨a, ha, hb⟩
      exact ⟨site, a, ha, b, hb, rfl, rfl⟩
  · simp [List.map_filterMap, List.filterMap_map, Function.comp_def]

theorem map (h : Lists At xs) (f : α → β) :
    Lists (fun site b => ∃ a, At site a ∧ f a = b) (xs.map f) := by
  rw [← List.filterMap_eq_map]
  exact (h.filterMap _).congr fun site b => by simp

theorem filter (h : Lists At xs) (p : α → Bool) :
    Lists (fun site a => At site a ∧ p a = true) (xs.filter p) := by
  rw [← List.filterMap_eq_filter]
  refine (h.filterMap _).congr fun site a => ?_
  simp only [Option.guard_eq_some_iff]
  exact ⟨fun ⟨b, hb, heq, hp⟩ => heq ▸ ⟨hb, hp⟩, fun ⟨ha, hp⟩ => ⟨a, ha, rfl, hp⟩⟩

/-- What there is inside the members of a list is found at pairs of sites. -/
theorem flatMap (h : Lists At xs) {f : α → List β} {In : α → τ → β → Prop}
    (hf : ∀ a ∈ xs, Lists (In a) (f a)) :
    Lists (fun (site : σ × τ) b => ∃ a, At site.1 a ∧ In a site.2 b) (xs.flatMap f) := by
  have hinner : ∀ a, ∃ inner, a ∈ xs → Enumerates (In a) inner ∧ inner.map Prod.snd = f a := by
    intro a
    by_cases ha : a ∈ xs
    · obtain ⟨inner, hinner⟩ := hf a ha
      exact ⟨inner, fun _ => hinner⟩
    · exact ⟨[], fun h => absurd h ha⟩
  choose inner hinner using hinner
  obtain ⟨entries, h, rfl⟩ := h
  have hmem {e : σ × α} (he : e ∈ entries) := hinner e.2 (List.mem_map_of_mem he)
  refine ⟨entries.flatMap fun e => (inner e.2).map fun i => ((e.1, i.1), i.2),
    ⟨?_, fun site b => ?_⟩, ?_⟩
  · rw [List.map_flatMap, List.nodup_flatMap]
    constructor
    · intro e he
      have hnodup := (hmem he).1.nodup.map (Prod.mk_right_injective e.1)
      simpa [List.map_map, Function.comp_def] using hnodup
    · -- entries of different sites have different pairs
      refine (List.pairwise_map.1 h.nodup).imp fun hne => ?_
      simp only [Function.onFun, List.map_map, List.disjoint_left, List.mem_map]
      rintro _ ⟨i, -, rfl⟩ ⟨j, -, heq⟩
      exact hne (congrArg Prod.fst heq).symm
  · simp only [List.mem_flatMap, List.mem_map, Prod.exists, Prod.mk.injEq]
    constructor
    · rintro ⟨site', a, he, t, b', hi, rfl, rfl⟩
      exact ⟨a, (h.mem_iff _ _).1 he, ((hmem he).1.mem_iff _ _).1 hi⟩
    · rintro ⟨a, ha, hb⟩
      have he := (h.mem_iff _ _).2 ha
      exact ⟨site.1, a, he, site.2, b, ((hmem he).1.mem_iff _ _).2 hb, rfl, rfl⟩
  · rw [List.map_flatMap, List.flatMap_map]
    refine List.flatMap_congr fun e he => ?_
    rw [List.map_map, ← (hmem he).2]
    rfl

/-- Members of a list that a label tells apart are found at their labels. -/
theorem of_nodup {label : α → σ} (h : (xs.map label).Nodup) :
    Lists (fun site a => a ∈ xs ∧ label a = site) xs := by
  refine ⟨xs.map fun a => (label a, a), ⟨by simpa [Function.comp_def] using h, fun site a => ?_⟩,
    by simp [Function.comp_def]⟩
  simp only [List.mem_map, Prod.mk.injEq]
  exact ⟨fun ⟨b, hb, hlabel, heq⟩ => heq ▸ ⟨hb, hlabel⟩, fun ⟨ha, hlabel⟩ => ⟨a, ha, hlabel, rfl⟩⟩

/-- The members of a list are found at their indices. -/
theorem getElem? (xs : List α) : Lists (fun (i : Nat) a => xs[i]? = some a) xs := by
  refine ⟨xs.zipIdx.map Prod.swap, ⟨?_, fun i a => ?_⟩, ?_⟩
  · have hsites : (xs.zipIdx.map Prod.swap).map Prod.fst = xs.zipIdx.map Prod.snd := by
      rw [List.map_map]
      rfl
    rw [hsites, List.zipIdx_map_snd]
    exact List.nodup_range'
  · simp [List.mk_mem_zipIdx_iff_getElem?]
  · rw [List.map_map]
    exact List.zipIdx_map_fst 0 xs

end Lists

/-! ## Stages -/

section Stages

variable {kind : σ → Nat} {k : Nat}

/-- The list holds what there is at the sites of the first `k` kinds, one kind after the other. -/
def Staged (kind : σ → Nat) (At : σ → α → Prop) (k : Nat) (xs : List α) : Prop :=
  ∃ entries, Enumerates (fun site a => kind site < k ∧ At site a) entries ∧
    entries.Pairwise (fun e e' => kind e.1 ≤ kind e'.1) ∧ entries.map Prod.snd = xs

theorem Staged.nil : Staged kind At 0 [] :=
  ⟨[], ⟨List.nodup_nil, by simp⟩, .nil, rfl⟩

/-- The next kind comes behind the others. -/
theorem Staged.append (h : Staged kind At k xs)
    (h' : Lists (fun site a => kind site = k ∧ At site a) ys) :
    Staged kind At (k + 1) (xs ++ ys) := by
  obtain ⟨entries, h, hstages, rfl⟩ := h
  obtain ⟨entries', h', rfl⟩ := h'
  have hall := h.append h' fun site a b ha hb => Nat.ne_of_lt ha.1 hb.1
  have hsame {e : σ × α} (he : e ∈ entries') : kind e.1 = k := ((h'.mem_iff _ _).1 he).1
  refine ⟨entries ++ entries', ⟨hall.nodup, fun site a => ?_⟩, ?_, List.map_append⟩
  · rw [hall.mem_iff, ← or_and_right, Nat.lt_succ_iff_lt_or_eq]
  · refine List.pairwise_append.2 ⟨hstages, ?_, fun e he e' he' => ?_⟩
    · exact List.pairwise_of_forall_mem_list fun e he e' he' =>
        Nat.le_of_eq ((hsame he).trans (hsame he').symm)
    · rw [hsame he']
      exact Nat.le_of_lt ((h.mem_iff _ _).1 he).1

/-- Two members of a list stand in one order or the other. -/
theorem pair_sublist_or {a b : α} (ha : a ∈ xs) (hb : b ∈ xs) (hne : a ≠ b) :
    [a, b].Sublist xs ∨ [b, a].Sublist xs := by
  obtain ⟨before, following, rfl⟩ := List.append_of_mem ha
  rcases List.mem_append.1 hb with hb | hb
  · exact .inr ((List.singleton_sublist.2 hb).append (List.singleton_sublist.2 List.mem_cons_self))
  · rcases List.mem_cons.1 hb with heq | hb
    · exact absurd heq.symm hne
    · exact .inl (((List.singleton_sublist.2 hb).cons_cons a).trans (List.sublist_append_right _ _))

/-- In a list without repetitions they do not stand in both. -/
theorem not_pair_sublist_swap {a b : α} (hnodup : xs.Nodup) (hab : [a, b].Sublist xs) :
    ¬ [b, a].Sublist xs := by
  induction xs with
  | nil => cases hab
  | cons x xs ih =>
    obtain ⟨hx, hnodup⟩ := List.nodup_cons.1 hnodup
    intro hba
    cases hab with
    | cons _ hab =>
      cases hba with
      | cons _ hba => exact ih hnodup hab hba
      | cons_cons _ hba => exact hx (hab.subset (by simp))
    | cons_cons _ hb =>
      cases hba with
      | cons _ hba => exact hx (hba.subset (by simp))
      | cons_cons _ hba => exact hx (List.singleton_sublist.1 hba)

/-- **Sorting keeps the order of members that the sorting does not tell apart.** -/
theorem pairwise_mergeSort_of_nodup {le : α → α → Bool}
    (htrans : ∀ a b c, le a b = true → le b c = true → le a c = true)
    (htotal : ∀ a b, (le a b || le b a) = true) {R : α → α → Prop} (hnodup : xs.Nodup)
    (hR : xs.Pairwise R) :
    (xs.mergeSort le).Pairwise fun a b => le a b = true ∧ (le b a = true → R a b) := by
  have hsorted := List.pairwise_mergeSort htrans htotal xs
  have hperm := List.mergeSort_perm xs le
  have hnodup' : (xs.mergeSort le).Nodup := hperm.nodup_iff.2 hnodup
  refine List.pairwise_iff_forall_sublist.2 fun {a b} hab => ?_
  refine ⟨List.pairwise_iff_forall_sublist.1 hsorted hab, fun hle => ?_⟩
  have hne : a ≠ b := List.pairwise_iff_forall_sublist.1 hnodup' hab
  have ha : a ∈ xs := hperm.mem_iff.1 (hab.subset (by simp))
  have hb : b ∈ xs := hperm.mem_iff.1 (hab.subset (by simp))
  rcases pair_sublist_or ha hb hne with hsame | hswapped
  · exact List.pairwise_iff_forall_sublist.1 hR hsame
  · have hswapped' := List.pair_sublist_mergeSort htrans htotal hle hswapped
    exact absurd hswapped' (not_pair_sublist_swap hnodup' hab)

/-- **Sorting by a key keeps the stages in order where the keys are equal.** -/
theorem Staged.mergeSort (h : Staged kind At k xs) (key : α → Nat) :
    ∃ entries, Enumerates (fun site a => kind site < k ∧ At site a) entries ∧
      entries.map Prod.snd = (xs.mergeSort fun a b => decide (key a ≤ key b)) ∧
      entries.Pairwise fun e e' =>
        key e.2 < key e'.2 ∨ key e.2 = key e'.2 ∧ kind e.1 ≤ kind e'.1 := by
  obtain ⟨entries, h, hstages, rfl⟩ := h
  have hperm := List.mergeSort_perm entries fun e e' => decide (key e.2 ≤ key e'.2)
  refine ⟨_, ⟨(hperm.map Prod.fst).nodup_iff.2 h.nodup, fun site a => ?_⟩,
    List.map_mergeSort fun _ _ _ _ => rfl, ?_⟩
  · rw [hperm.mem_iff, h.mem_iff]
  · refine (pairwise_mergeSort_of_nodup ?_ ?_ (.of_map _ h.nodup) hstages).imp ?_
    · intro a b c hab hbc
      simp only [decide_eq_true_eq] at *
      exact Nat.le_trans hab hbc
    · intro a b
      simpa using Nat.le_total _ _
    · rintro e e' ⟨hle, hsame⟩
      simp only [decide_eq_true_eq] at *
      rcases Nat.lt_or_eq_of_le hle with hlt | heq
      · exact .inl hlt
      · exact .inr ⟨heq, hsame (Nat.le_of_eq heq.symm)⟩

end Stages

end KarelRobot
