import ApiSurface.Model.Basic

/-!
# Lists in the order of their names

Packages and types are sorted by their names with a sort that keeps the order of equal names. Two
facts about such a sort, for any list whose items have a name:

* `named_sortByName`: the items of one name stand in the sorted list in the order in which they
  stood before;
* `sortByName_congr`: the sorted list is determined by the items of each name, in their order. How
  items of different names are mixed makes no difference.
-/

namespace ApiSurface

variable {α : Type} (name : α → String)

/-- The list in the order of the names, items of one name in the order they had. -/
def sortByName (l : List α) : List α := l.mergeSort fun a b => decide (name a ≤ name b)

/-- The items of one name, in order. -/
def named (n : String) (l : List α) : List α := l.filter fun a => name a = n

/-- The items of a name are the items of the list that have it. -/
theorem mem_named {n : String} {a : α} {l : List α} :
    a ∈ named name n l ↔ a ∈ l ∧ name a = n := by
  simp [named]

/-- Sorting by name only moves items. -/
theorem sortByName_perm (l : List α) : (sortByName name l).Perm l := List.mergeSort_perm _ _

/-- Sorting by name neither adds nor loses an item. -/
theorem mem_sortByName {a : α} {l : List α} : a ∈ sortByName name l ↔ a ∈ l :=
  (sortByName_perm name l).mem_iff

/-- Sorting commutes with a map that keeps the names. -/
theorem sortByName_map {f : α → α} (hf : ∀ a, name (f a) = name a) (l : List α) :
    sortByName name (l.map f) = (sortByName name l).map f := by
  refine (List.map_mergeSort fun a _ b _ => ?_).symm
  rw [hf, hf]

/-- The comparison of names is transitive. -/
theorem leName_trans (a b c : α) (hab : decide (name a ≤ name b) = true)
    (hbc : decide (name b ≤ name c) = true) : decide (name a ≤ name c) = true := by
  rw [decide_eq_true_eq] at hab hbc ⊢
  exact String.le_trans hab hbc

/-- Of two names one is at most the other. -/
theorem leName_total (a b : α) : (decide (name a ≤ name b) || decide (name b ≤ name a)) = true := by
  rw [Bool.or_eq_true, decide_eq_true_eq, decide_eq_true_eq]
  exact String.le_total _ _

/-- The names of a sorted list never decrease. -/
theorem sortByName_sorted (l : List α) :
    (sortByName name l).Pairwise fun a b => name a ≤ name b := by
  have h := List.pairwise_mergeSort (leName_trans name) (leName_total name) l
  exact h.imp fun hab => by simpa using hab

/-- If no name occurs twice, the sorted names increase. -/
theorem sortByName_increasing {l : List α} (h : (l.map name).Nodup) :
    (sortByName name l).Pairwise fun a b => name a < name b := by
  have hnodup : ((sortByName name l).map name).Nodup :=
    ((sortByName_perm name l).map name).nodup_iff.mpr h
  rw [List.Nodup, List.pairwise_map] at hnodup
  refine (sortByName_sorted name l).imp₂ ?_ hnodup
  intro a b hle hne
  exact String.not_le.mp fun hge => hne (String.le_antisymm hle hge)

/-- Sorting keeps the items of each name in their order. -/
theorem named_sortByName (n : String) (l : List α) :
    named name n (sortByName name l) = named name n l := by
  -- The items of one name are a sorted sublist, which a stable sort keeps.
  have hsorted : (named name n l).Pairwise fun a b => decide (name a ≤ name b) = true := by
    apply List.pairwise_of_forall_mem_list
    intro a ha b hb
    have hname : name a = name b := ((mem_named name).mp ha).2.trans ((mem_named name).mp hb).2.symm
    exact decide_eq_true (hname ▸ String.le_refl (name a))
  have hsub : (named name n l).Sublist (sortByName name l) :=
    List.sublist_mergeSort (leName_trans name) (leName_total name) hsorted List.filter_sublist
  have hfilter : (named name n l).Sublist (named name n (sortByName name l)) := by
    have h := hsub.filter fun a => decide (name a = n)
    simpa [named] using h
  have hlen : (named name n (sortByName name l)).length = (named name n l).length :=
    ((sortByName_perm name l).filter _).length_eq
  exact (hfilter.eq_of_length hlen.symm).symm

/-- Lists with the same items of each name have the same items. -/
theorem mem_iff_of_named_eq {l k : List α} (h : ∀ n, named name n l = named name n k) (a : α) :
    a ∈ l ↔ a ∈ k := by
  have ha : a ∈ named name (name a) l ↔ a ∈ named name (name a) k := by rw [h]
  simpa [mem_named] using ha

/-- A sorted list is determined by its items of each name, in their order. -/
theorem eq_of_named_eq {l k : List α} (hl : l.Pairwise fun a b => name a ≤ name b)
    (hk : k.Pairwise fun a b => name a ≤ name b) (h : ∀ n, named name n l = named name n k) :
    l = k := by
  induction l generalizing k with
  | nil =>
    rcases k with _ | ⟨b, k⟩
    · rfl
    · exact absurd ((mem_iff_of_named_eq name h b).mpr List.mem_cons_self) List.not_mem_nil
  | cons a l ih =>
    have hmem := mem_iff_of_named_eq name h
    rcases k with _ | ⟨b, k⟩
    · exact absurd ((hmem a).mp List.mem_cons_self) List.not_mem_nil
    · rw [List.pairwise_cons] at hl hk
      -- Both heads have the least name, and so are the first item of that name.
      have hab : name a ≤ name b := by
        rcases List.mem_cons.mp ((hmem b).mpr List.mem_cons_self) with rfl | hb
        · exact String.le_refl _
        · exact hl.1 b hb
      have hba : name b ≤ name a := by
        rcases List.mem_cons.mp ((hmem a).mp List.mem_cons_self) with rfl | ha
        · exact String.le_refl _
        · exact hk.1 a ha
      have hname := String.le_antisymm hab hba
      have hhead := h (name a)
      simp only [named, List.filter_cons, hname, decide_true, if_true, List.cons.injEq] at hhead
      obtain ⟨rfl, -⟩ := hhead
      have htail : ∀ n, named name n l = named name n k := by
        intro n
        have hn := h n
        simp only [named, List.filter_cons] at hn ⊢
        split at hn
        · exact (List.cons.inj hn).2
        · exact hn
      rw [ih hl.2 hk.2 htail]

/-- Lists with the same items of each name, in the same order, are the same when sorted. -/
theorem sortByName_congr {l k : List α} (h : ∀ n, named name n l = named name n k) :
    sortByName name l = sortByName name k := by
  apply eq_of_named_eq name (sortByName_sorted name l) (sortByName_sorted name k)
  intro n
  rw [named_sortByName, named_sortByName, h]

/-- Increasing lists with the same names are the same. -/
theorem eq_of_increasing {l k : List String} (hl : l.Pairwise (· < ·)) (hk : k.Pairwise (· < ·))
    (h : ∀ n, n ∈ l ↔ n ∈ k) : l = k := by
  have hperm : l.Perm k := by
    refine (List.perm_ext_iff_of_nodup (hl.imp ?_) (hk.imp ?_)).mpr h
    · exact fun hab => String.ne_of_lt hab
    · exact fun hab => String.ne_of_lt hab
  refine hperm.eq_of_pairwise ?_ hl hk
  intro a b _ _ hab hba
  exact absurd hab (String.lt_asymm hba)

end ApiSurface
