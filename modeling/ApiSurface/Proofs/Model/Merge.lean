import ApiSurface.Model.Merge
import ApiSurface.Proofs.Model.NameOrder

/-!
# What merging packages keeps

Merging fragments gives each package name once, and under each name the types of all its fragments
in the order of the fragments. `Gathers fragments packages` says this of a list of packages; one
more fragment keeps it (`Gathers.mergeInto`), so it holds of every API made of fragments
(`gathers_ofFragments`).
-/

namespace ApiSurface

/-- The types of all packages of the given name, in order. -/
def typesIn (n : String) (ps : List Package) : List TypeDecl :=
  (named Package.name n ps).flatMap Package.types

/-- The types of a name in joined lists are those of the first list and then of the second. -/
theorem typesIn_append (n : String) (ps qs : List Package) :
    typesIn n (ps ++ qs) = typesIn n ps ++ typesIn n qs := by
  simp [typesIn, named]

/-- A package in front adds its types to those of its own name, and to no others. -/
theorem typesIn_cons (n : String) (p : Package) (ps : List Package) :
    typesIn n (p :: ps) = if p.name = n then p.types ++ typesIn n ps else typesIn n ps := by
  by_cases hp : p.name = n
  · simp [typesIn, named, hp]
  · simp [typesIn, named, hp]

/-- Nothing stands under a name that no package has. -/
theorem typesIn_of_not_mem {n : String} {ps : List Package} (h : n ∉ ps.map Package.name) :
    typesIn n ps = [] := by
  induction ps with
  | nil => rfl
  | cons p ps ih =>
    rw [List.map_cons, List.mem_cons, not_or] at h
    rw [typesIn_cons, if_neg (Ne.symm h.1), ih h.2]

/-- Where no name occurs twice, the types under the name of a package are its own. -/
theorem typesIn_of_mem {p : Package} {ps : List Package} (hnodup : (ps.map Package.name).Nodup)
    (hp : p ∈ ps) : typesIn p.name ps = p.types := by
  induction ps with
  | nil => exact absurd hp List.not_mem_nil
  | cons q ps ih =>
    rw [List.map_cons, List.nodup_cons] at hnodup
    rcases List.mem_cons.mp hp with rfl | hp
    · rw [typesIn_cons, if_pos rfl, typesIn_of_not_mem hnodup.1, List.append_nil]
    · have hne : q.name ≠ p.name := by
        intro he
        exact hnodup.1 (he ▸ List.mem_map_of_mem hp)
      rw [typesIn_cons, if_neg hne, ih hnodup.2 hp]

/-! ## One fragment -/

/-- A fragment adds its name if that is new, and leaves the other names as they are. -/
theorem names_mergeInto (ps : List Package) (p : Package) :
    (mergeInto ps p).map Package.name =
      if p.name ∈ ps.map Package.name then ps.map Package.name
      else ps.map Package.name ++ [p.name] := by
  induction ps with
  | nil => rfl
  | cons q ps ih =>
    rw [mergeInto]
    by_cases hq : q.name = p.name
    · simp [hq]
    · rw [if_neg hq, List.map_cons, ih]
      by_cases hp : p.name ∈ ps.map Package.name
      · rw [if_pos hp, if_pos (by simp [hp])]
        rfl
      · have hnot : p.name ∉ (q :: ps).map Package.name := by
          rw [List.map_cons, List.mem_cons, not_or]
          exact ⟨Ne.symm hq, hp⟩
        rw [if_neg hp, if_neg hnot]
        rfl

/-- A fragment adds its types behind those of its name. -/
theorem typesIn_mergeInto {ps : List Package} (hnodup : (ps.map Package.name).Nodup)
    (p : Package) (n : String) : typesIn n (mergeInto ps p) = typesIn n ps ++ typesIn n [p] := by
  induction ps with
  | nil => rfl
  | cons q ps ih =>
    rw [List.map_cons, List.nodup_cons] at hnodup
    rw [mergeInto]
    by_cases hq : q.name = p.name
    · rw [if_pos hq, typesIn_cons, typesIn_cons n q, typesIn_cons n p]
      by_cases hn : q.name = n
      · -- No other package has this name, so nothing stands between the two lists.
        have hrest : typesIn n ps = [] := typesIn_of_not_mem (hn ▸ hnodup.1)
        rw [if_pos hn, if_pos hn, if_pos (hq ▸ hn), hrest]
        simp [typesIn, named]
      · rw [if_neg hn, if_neg hn, if_neg (hq ▸ hn)]
        simp [typesIn, named]
    · rw [if_neg hq, typesIn_cons, typesIn_cons n q, ih hnodup.2]
      by_cases hn : q.name = n
      · rw [if_pos hn, if_pos hn, List.append_assoc]
      · rw [if_neg hn, if_neg hn]

/-! ## All fragments -/

/-- The packages hold what the fragments hold, under each name once. -/
structure Gathers (fragments packages : List Package) : Prop where
  /-- No name occurs twice. -/
  nodup : (packages.map Package.name).Nodup
  /-- The names are those of the fragments. -/
  mem_names : ∀ n, n ∈ packages.map Package.name ↔ n ∈ fragments.map Package.name
  /-- Under each name stand the types of its fragments, in order. -/
  types : ∀ n, typesIn n packages = typesIn n fragments

/-- One more fragment is gathered by merging it in. -/
theorem Gathers.mergeInto {fragments packages : List Package} (h : Gathers fragments packages)
    (p : Package) : Gathers (fragments ++ [p]) (mergeInto packages p) := by
  refine ⟨?_, ?_, ?_⟩
  · rw [names_mergeInto]
    by_cases hp : p.name ∈ packages.map Package.name
    · rw [if_pos hp]
      exact h.nodup
    · rw [if_neg hp]
      refine List.nodup_append.mpr ⟨h.nodup, by simp, ?_⟩
      intro a ha b hb he
      rw [List.mem_singleton] at hb
      exact hp (hb ▸ he ▸ ha)
  · intro n
    rw [names_mergeInto, List.map_append, List.mem_append, ← h.mem_names]
    by_cases hp : p.name ∈ packages.map Package.name
    · rw [if_pos hp]
      constructor
      · exact Or.inl
      · rintro (hn | hn)
        · exact hn
        · rw [List.map_singleton, List.mem_singleton] at hn
          exact hn ▸ hp
    · rw [if_neg hp, List.mem_append]
      rfl
  · intro n
    rw [typesIn_mergeInto h.nodup, typesIn_append, h.types]

/-- More fragments are gathered by merging them in one after the other. -/
theorem Gathers.foldl {fragments : List Package} {api : Api} (h : Gathers fragments api.packages)
    (more : List Package) : Gathers (fragments ++ more) (more.foldl Api.merge api).packages := by
  induction more generalizing fragments api with
  | nil =>
    rw [List.append_nil]
    exact h
  | cons p more ih =>
    have hstep : Gathers (fragments ++ [p]) (api.merge p).packages := h.mergeInto p
    have hrun := ih hstep
    rwa [List.append_assoc, List.singleton_append] at hrun

/-- The packages made of fragments gather them. -/
theorem gathers_ofFragments (fragments : List Package) :
    Gathers fragments (Api.ofFragments fragments).packages := by
  have hempty : Gathers [] ({} : Api).packages := ⟨List.nodup_nil, fun _ => Iff.rfl, fun _ => rfl⟩
  exact hempty.foldl fragments

end ApiSurface
