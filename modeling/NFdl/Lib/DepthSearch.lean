import Mathlib.Data.Finset.Basic
import Mathlib.Data.List.Nodup

/-!
# Depth-limited search

A depth-first search that enters no node twice and goes no deeper than a number of edges
enters a node along the first path that it takes there. Which nodes these are is said without
a search: in the list of all short paths, in the order of the edges, a path is taken if the
path without its last edge is and no path taken so far leads to the same node.
-/

namespace DepthSearch

variable {ν : Type*} (next : ν → List ν)

/-- The nodes after a node form a path along the edges. -/
def IsPath : ν → List ν → Prop
  | _, [] => True
  | v, w :: p => w ∈ next v ∧ IsPath w p

/-- The node that a path from a node leads to. -/
def endOf (v : ν) (p : List ν) : ν := p.getLast?.getD v

/-- All paths of at most a number of edges, in the order of the edges. -/
def paths : ℕ → ν → List (List ν)
  | 0, _ => [[]]
  | h + 1, v => [] :: (next v).flatMap fun w => (paths h w).map (w :: ·)

section Search

variable [DecidableEq ν]

/-- The nodes that a search has seen when it leaves a node. -/
def explore : ℕ → ν → Finset ν → Finset ν
  | 0, v, seen => insert v seen
  | h + 1, v, seen =>
      (next v).foldl (fun seen w => if w ∈ seen then seen else explore h w seen) (insert v seen)

/-- Whether a path is the first one to its end and continues one that was taken. -/
def Continues (start : ν) (kept : List (List ν)) (p : List ν) : Prop :=
  (p = [] ∨ p.dropLast ∈ kept) ∧ ∀ q ∈ kept, endOf start q ≠ endOf start p

instance (start : ν) (kept : List (List ν)) (p : List ν) : Decidable (Continues start kept p) :=
  inferInstanceAs (Decidable ((p = [] ∨ p.dropLast ∈ kept) ∧ ∀ q ∈ kept, _ ≠ _))

/-- Take those of some paths that continue what was taken before. -/
def take (start : ν) (kept : List (List ν)) (ps : List (List ν)) : List (List ν) :=
  ps.foldl (fun kept p => if Continues start kept p then kept ++ [p] else kept) kept

/-- The paths along which nodes are entered. -/
def taken (h : ℕ) (start : ν) : List (List ν) := take start [] (paths next h start)

end Search

variable {next} {v w start : ν} {p q : List ν} {h : ℕ}

@[simp] theorem endOf_nil : endOf v [] = v := rfl

@[simp] theorem endOf_append_singleton : endOf v (p ++ [w]) = w := by
  unfold endOf
  rw [List.getLast?_concat]
  rfl

theorem endOf_cons : endOf v (w :: p) = endOf w p := by
  unfold endOf
  rw [List.getLast?_cons]
  rfl

theorem isPath_append : IsPath next v (p ++ q) ↔ IsPath next v p ∧ IsPath next (endOf v p) q := by
  induction p generalizing v with
  | nil => exact (and_iff_right trivial).symm
  | cons w p ih =>
      change w ∈ next v ∧ IsPath next w (p ++ q) ↔ (w ∈ next v ∧ IsPath next w p) ∧ _
      rw [ih, endOf_cons, and_assoc]

/-- The listed paths are paths of the allowed length. -/
theorem mem_paths (hp : p ∈ paths next h v) : IsPath next v p ∧ p.length ≤ h := by
  induction h generalizing v p with
  | zero =>
      obtain rfl := List.mem_singleton.mp hp
      exact ⟨trivial, Nat.le_refl 0⟩
  | succ h ih =>
      obtain rfl | hp := List.mem_cons.mp hp
      · exact ⟨trivial, Nat.zero_le _⟩
      · obtain ⟨w, hw, hmap⟩ := List.mem_flatMap.mp hp
        obtain ⟨tail, htail, rfl⟩ := List.mem_map.mp hmap
        obtain ⟨hpath, hlength⟩ := ih htail
        exact ⟨⟨hw, hpath⟩, Nat.succ_le_succ hlength⟩

section Search

variable [DecidableEq ν] {kept : List (List ν)} {ps : List (List ν)} {x : ν}

/-- The nodes that some paths lead to. -/
def ends (start : ν) (kept : List (List ν)) : Finset ν := (kept.map (endOf start)).toFinset

theorem mem_ends : x ∈ ends start kept ↔ ∃ q ∈ kept, endOf start q = x := by
  unfold ends
  rw [List.mem_toFinset, List.mem_map]

theorem ends_append_singleton :
    ends start (kept ++ [p]) = insert (endOf start p) (ends start kept) := by
  ext x
  rw [mem_ends, Finset.mem_insert, mem_ends]
  constructor
  · rintro ⟨q, hq, rfl⟩
    obtain hq | hq := List.mem_append.mp hq
    · exact .inr ⟨q, hq, rfl⟩
    · obtain rfl := List.mem_singleton.mp hq
      exact .inl rfl
  · rintro (rfl | ⟨q, hq, rfl⟩)
    · exact ⟨p, List.mem_append_right _ (List.mem_singleton_self _), rfl⟩
    · exact ⟨q, List.mem_append_left _ hq, rfl⟩

@[simp] theorem take_nil : take start kept [] = kept := rfl

theorem take_cons : take start kept (p :: ps) =
    take start (if Continues start kept p then kept ++ [p] else kept) ps := rfl

theorem take_append {ps' : List (List ν)} :
    take start kept (ps ++ ps') = take start (take start kept ps) ps' := List.foldl_append

/-- Every path taken was listed. -/
theorem mem_take (hq : q ∈ take start kept ps) : q ∈ kept ∨ q ∈ ps := by
  induction ps generalizing kept with
  | nil => exact .inl hq
  | cons p ps ih =>
      rw [take_cons] at hq
      obtain hkept | hps := ih hq
      · split at hkept
        · obtain hkept | hlast := List.mem_append.mp hkept
          · exact .inl hkept
          · exact .inr (List.mem_cons.mpr (.inl (List.mem_singleton.mp hlast)))
        · exact .inl hkept
      · exact .inr (List.mem_cons_of_mem _ hps)

/-- What follows a path that was not taken is not taken. -/
theorem take_of_seen (hseen : endOf start p ∈ ends start kept) (hp : p ≠ [])
    (hnone : ∀ q ∈ kept, ¬ p <+: q) (us : List (List ν)) :
    take start kept (us.map (p ++ ·)) = kept := by
  induction us with
  | nil => rfl
  | cons u us ih =>
      rw [List.map_cons, take_cons, if_neg, ih]
      rintro ⟨hparent, hfirst⟩
      cases hu : u.getLast? with
      | none =>
          obtain rfl := List.getLast?_eq_none_iff.mp hu
          obtain ⟨q, hq, hend⟩ := mem_ends.mp hseen
          exact hfirst q hq (by rw [List.append_nil]; exact hend)
      | some last =>
          obtain ⟨front, rfl⟩ := List.getLast?_eq_some_iff.mp hu
          obtain hnil | hmem := hparent
          · exact hp (List.append_eq_nil_iff.mp hnil).1
          · rw [← List.append_assoc, List.dropLast_concat] at hmem
            exact hnone _ hmem (List.prefix_append p front)

/-- Whether the search may enter the end of a path: its way there was taken, the end was
not seen, and nothing beyond it was taken. -/
structure Open (start : ν) (kept : List (List ν)) (p : List ν) : Prop where
  parent : p = [] ∨ p.dropLast ∈ kept
  unseen : endOf start p ∉ ends start kept
  nothing_beyond : ∀ q ∈ kept, ¬ p <+: q

theorem Open.continues (ho : Open start kept p) : Continues start kept p :=
  ⟨ho.parent, fun q hq hend => ho.unseen (mem_ends.mpr ⟨q, hq, hend⟩)⟩

/-- What taking the paths beyond an open one does: it and others beyond it are taken, and
their ends are what the search sees. -/
structure Entered (next : ν → List ν) (start : ν) (h : ℕ) (kept kept' : List (List ν))
    (p : List ν) : Prop where
  ends_eq : ends start kept' = explore next h (endOf start p) (ends start kept)
  old : ∀ q ∈ kept, q ∈ kept'
  self : p ∈ kept'
  new : ∀ q ∈ kept', q ∈ kept ∨ p <+: q

/-- The loop over the edges from the end of a path that was taken. -/
theorem take_edges (hbeyond : ∀ kept p, Open start kept p → Entered next start h kept
      (take start kept ((paths next h (endOf start p)).map (p ++ ·))) p)
    (ws : List ν) (hnodup : ws.Nodup) (hp : p ∈ kept)
    (hfresh : ∀ w ∈ ws, ∀ q ∈ kept, ¬ p ++ [w] <+: q) :
    ends start (take start kept (ws.flatMap fun w => (paths next h w).map (p ++ [w] ++ ·))) =
        ws.foldl (fun seen w => if w ∈ seen then seen else explore next h w seen)
          (ends start kept) ∧
      (∀ q ∈ kept, q ∈ take start kept (ws.flatMap fun w => (paths next h w).map (p ++ [w] ++ ·))) ∧
      ∀ q ∈ take start kept (ws.flatMap fun w => (paths next h w).map (p ++ [w] ++ ·)),
        q ∈ kept ∨ p <+: q := by
  induction ws generalizing kept with
  | nil => exact ⟨rfl, fun q hq => hq, fun q hq => .inl hq⟩
  | cons w ws ih =>
      obtain ⟨hw, hnodup⟩ := List.nodup_cons.mp hnodup
      have hend : endOf start (p ++ [w]) = w := endOf_append_singleton
      rw [List.flatMap_cons, take_append, List.foldl_cons]
      by_cases hseen : w ∈ ends start kept
      · have hskip : take start kept ((paths next h w).map (p ++ [w] ++ ·)) = kept :=
          take_of_seen (by rwa [hend]) (by simp) (hfresh w (List.mem_cons_self ..)) _
        rw [hskip, if_pos hseen]
        exact ih hnodup hp fun w' hw' => hfresh w' (List.mem_cons_of_mem _ hw')
      · have hopen : Open start kept (p ++ [w]) :=
          ⟨.inr (by rwa [List.dropLast_concat]), by rwa [hend], hfresh w (List.mem_cons_self ..)⟩
        obtain ⟨hends, hold, -, hnew⟩ := hbeyond kept (p ++ [w]) hopen
        rw [hend] at hends hold hnew
        rw [if_neg hseen, ← hends]
        obtain ⟨hrest, hkeeps, hadds⟩ := ih hnodup (hold p hp) fun w' hw' q hq hbefore => by
          obtain hq | hq := hnew q hq
          · exact hfresh w' (List.mem_cons_of_mem _ hw') q hq hbefore
          · have hsame := List.prefix_of_prefix_length_le hbefore hq (by simp)
            have heq : w' = w := by simpa using hsame.eq_of_length (by simp)
            exact hw (heq ▸ hw')
        refine ⟨hrest, fun q hq => hkeeps q (hold q hq), fun q hq => ?_⟩
        obtain hq | hq := hadds q hq
        · exact (hnew q hq).imp_right (List.prefix_append p [w]).trans
        · exact .inr hq

/-- The paths beyond an open path are taken as the search enters their ends. -/
theorem take_entered (hnext : ∀ v, (next v).Nodup) (h : ℕ) (ho : Open start kept p) :
    Entered next start h kept
      (take start kept ((paths next h (endOf start p)).map (p ++ ·))) p := by
  induction h generalizing kept p with
  | zero =>
      have htake : take start kept ((paths next 0 (endOf start p)).map (p ++ ·)) = kept ++ [p] := by
        change take start kept [p ++ []] = _
        rw [List.append_nil, take_cons, if_pos ho.continues, take_nil]
      rw [htake]
      refine ⟨ends_append_singleton, fun q hq => List.mem_append_left _ hq,
        List.mem_append_right _ (List.mem_singleton_self _), fun q hq => ?_⟩
      obtain hq | hq := List.mem_append.mp hq
      · exact .inl hq
      · obtain rfl := List.mem_singleton.mp hq
        exact .inr (List.prefix_refl _)
  | succ h ih =>
      have hlist : (paths next (h + 1) (endOf start p)).map (p ++ ·) =
          p :: (next (endOf start p)).flatMap fun w => (paths next h w).map (p ++ [w] ++ ·) := by
        have hpaths : paths next (h + 1) (endOf start p) =
            [] :: (next (endOf start p)).flatMap fun w => (paths next h w).map (w :: ·) := rfl
        rw [hpaths, List.map_cons, List.append_nil, List.map_flatMap]
        refine congrArg (p :: ·) (congrArg (List.flatMap · _) (funext fun w => ?_))
        rw [List.map_map]
        refine List.map_congr_left fun u _ => ?_
        exact List.append_cons p w u
      have hkept : ∀ q ∈ kept ++ [p], q ∈ kept ∨ q = p := fun q hq =>
        (List.mem_append.mp hq).imp_right List.mem_singleton.mp
      rw [hlist, take_cons, if_pos ho.continues]
      have hp : p ∈ kept ++ [p] := List.mem_append_right _ (List.mem_singleton_self _)
      have hfresh : ∀ w ∈ next (endOf start p), ∀ q ∈ kept ++ [p], ¬ p ++ [w] <+: q := by
        intro w _ q hq hbefore
        obtain hq | rfl := hkept q hq
        · exact ho.nothing_beyond q hq ((List.prefix_append p [w]).trans hbefore)
        · have hle := hbefore.length_le
          rw [List.length_append, List.length_singleton] at hle
          omega
      obtain ⟨hends, hold, hnew⟩ :=
        take_edges (fun kept p ho => ih ho) (next (endOf start p)) (hnext _) hp hfresh
      refine ⟨?_, fun q hq => hold q (List.mem_append_left _ hq),
        hold p hp, fun q hq => ?_⟩
      · rw [hends, ends_append_singleton]
        rfl
      · obtain hq | hq := hnew q hq
        · obtain hq | rfl := hkept q hq
          · exact .inl hq
          · exact .inr (List.prefix_refl _)
        · exact .inr hq

/-- The paths taken are paths of the allowed length. -/
theorem mem_taken (hp : p ∈ taken next h start) : IsPath next start p ∧ p.length ≤ h :=
  mem_paths ((mem_take hp).resolve_left (List.not_mem_nil))

/-- The search enters the ends of the paths that are taken. -/
theorem mem_explore_iff (hnext : ∀ v, (next v).Nodup) (h : ℕ) :
    x ∈ explore next h start ∅ ↔ ∃ p ∈ taken next h start, endOf start p = x := by
  have hopen : Open start [] ([] : List ν) := ⟨.inl rfl, by simp [ends], nofun⟩
  have hends := (take_entered hnext h hopen).ends_eq
  rw [endOf_nil, List.map_id'' (fun u => List.nil_append u)] at hends
  change ends start (taken next h start) = explore next h start ∅ at hends
  rw [← hends, mem_ends]

end Search

end DepthSearch
