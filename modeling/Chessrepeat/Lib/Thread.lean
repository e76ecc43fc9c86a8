import Mathlib.Algebra.Ring.Int.Defs
import Chessrepeat.Lib.Siblings

/-!
# A value threaded down a tree

Every node is made from its label and from the value its parent has left. Siblings start from the same value.
-/

namespace Chessrepeat.Lib.Rose

variable {α β γ δ : Type*}

mutual
def thread (g : γ → α → Option (β × γ)) (c : γ) : Rose α → Option (Rose β)
  | .node a ts => (g c a).bind fun out => (threadList g out.2 ts).map (Rose.node out.1)

def threadList (g : γ → α → Option (β × γ)) (c : γ) : List (Rose α) → Option (List (Rose β))
  | [] => some []
  | t :: ts => (thread g c t).bind fun t' => (threadList g c ts).map (t' :: ·)
end

mutual
/-- The labels of the children of every node, with the value the node has left. -/
def families (step : γ → α → Option γ) (c : γ) : Rose α → List (γ × List α)
  | .node a ts => match step c a with
    | none => []
    | some c' => (c', ts.map label) :: familiesList step c' ts

def familiesList (step : γ → α → Option γ) (c : γ) : List (Rose α) → List (γ × List α)
  | [] => []
  | t :: ts => families step c t ++ familiesList step c ts
end

/-- What a callback leaves. -/
def leaves (g : γ → α → Option (β × γ)) (c : γ) (a : α) : Option γ := (g c a).map Prod.snd

/-! ## Results -/

variable {g : γ → α → Option (β × γ)} {step : γ → α → Option γ} {c : γ}

theorem thread_eq_some {a : α} {ts : List (Rose α)} {t' : Rose β} : thread g c (.node a ts) = some t' ↔
    ∃ b c' ts', g c a = some (b, c') ∧ threadList g c' ts = some ts' ∧ t' = .node b ts' := by
  rw [thread, Option.bind_eq_some_iff]
  constructor
  · rintro ⟨⟨b, c'⟩, hg, h⟩
    obtain ⟨ts', hts, rfl⟩ := Option.map_eq_some_iff.mp h
    exact ⟨b, c', ts', hg, hts, rfl⟩
  · rintro ⟨b, c', ts', hg, hts, rfl⟩
    exact ⟨(b, c'), hg, by rw [hts]; rfl⟩

theorem threadList_eq_some {t : Rose α} {ts : List (Rose α)} {ts' : List (Rose β)} :
    threadList g c (t :: ts) = some ts' ↔ ∃ u us, thread g c t = some u ∧ threadList g c ts = some us ∧ ts' = u :: us := by
  rw [threadList, Option.bind_eq_some_iff]
  constructor
  · rintro ⟨u, hu, h⟩
    obtain ⟨us, hus, rfl⟩ := Option.map_eq_some_iff.mp h
    exact ⟨u, us, hu, hus, rfl⟩
  · rintro ⟨u, us, hu, hus, rfl⟩
    exact ⟨u, hu, by rw [hus]; rfl⟩

theorem families_node {a : α} {b : β} {c' : γ} {ts : List (Rose α)} (h : g c a = some (b, c')) :
    families (leaves g) c (.node a ts) = (c', ts.map label) :: familiesList (leaves g) c' ts := by
  rw [families, leaves, h]
  rfl

mutual
/-- A node goes through if all its descendants do. -/
theorem isSome_thread : (t : Rose α) → (c : γ) → (g c t.label).isSome →
    (∀ f ∈ families (leaves g) c t, ∀ a ∈ f.2, (g f.1 a).isSome) → (thread g c t).isSome
  | .node a ts, c, ha, h => by
      rw [label_node] at ha
      obtain ⟨⟨b, c'⟩, hg⟩ := Option.isSome_iff_exists.mp ha
      rw [families_node hg] at h
      obtain ⟨ts', hts⟩ := Option.isSome_iff_exists.mp (isSome_threadList ts c' h)
      rw [thread_eq_some.mpr ⟨b, c', ts', hg, hts, rfl⟩]
      rfl

theorem isSome_threadList : (ts : List (Rose α)) → (c : γ) →
    (∀ f ∈ (c, ts.map label) :: familiesList (leaves g) c ts, ∀ a ∈ f.2, (g f.1 a).isSome) → (threadList g c ts).isSome
  | [], _, _ => rfl
  | t :: ts, c, h => by
      have hhead := h _ List.mem_cons_self
      have hrest : ∀ f ∈ familiesList (leaves g) c (t :: ts), ∀ a ∈ f.2, (g f.1 a).isSome := fun f hf =>
        h f (List.mem_cons_of_mem _ hf)
      rw [familiesList] at hrest
      obtain ⟨u, hu⟩ := Option.isSome_iff_exists.mp (isSome_thread t c (hhead _ List.mem_cons_self) fun f hf =>
        hrest f (List.mem_append_left _ hf))
      have htail : ∀ f ∈ (c, ts.map label) :: familiesList (leaves g) c ts, ∀ a ∈ f.2, (g f.1 a).isSome := by
        intro f hf
        rcases List.mem_cons.mp hf with rfl | hf
        · exact fun a ha => hhead a (List.mem_cons_of_mem _ ha)
        · exact hrest f (List.mem_append_right _ hf)
      obtain ⟨us, hus⟩ := Option.isSome_iff_exists.mp (isSome_threadList ts c htail)
      rw [threadList_eq_some.mpr ⟨u, us, hu, hus, rfl⟩]
      rfl
end

/-! ## Nodes and families -/

/-- A node of the result was made in a family. -/
def Made (g : γ → α → Option (β × γ)) (J : β → γ → Prop) (n : Rose β) (f : γ × List α) : Prop :=
  J n.label f.1 ∧ List.Forall₂ (fun (a : α) (m : Rose β) => ∃ c', g f.1 a = some (m.label, c')) f.2 n.children

theorem forall₂_children {ts : List (Rose α)} {ts' : List (Rose β)} (h : threadList g c ts = some ts') :
    List.Forall₂ (fun (a : α) (m : Rose β) => ∃ c', g c a = some (m.label, c')) (ts.map label) ts' := by
  induction ts generalizing ts' with
  | nil =>
      cases h
      exact .nil
  | cons t ts ih =>
      obtain ⟨u, us, hu, hus, rfl⟩ := threadList_eq_some.mp h
      obtain ⟨a, ds⟩ := t
      obtain ⟨b, c', _, hg, -, rfl⟩ := thread_eq_some.mp hu
      exact .cons ⟨c', hg⟩ (ih hus)

mutual
/-- The nodes of the result, the root aside, are made in the families. -/
theorem forall₂_nodes {J : β → γ → Prop} (hJ : ∀ {b₀ c a b c'}, J b₀ c → g c a = some (b, c') → J b c') :
    (t : Rose α) → {b₀ : β} → {c : γ} → {t' : Rose β} → J b₀ c → thread g c t = some t' →
      List.Forall₂ (Made g J) t'.nodes (families (leaves g) c t)
  | .node a ts, b₀, c, t', h₀, h => by
      obtain ⟨b, c', ts', hg, hts, rfl⟩ := thread_eq_some.mp h
      rw [families_node hg, nodes]
      exact .cons ⟨hJ h₀ hg, forall₂_children hts⟩ (forall₂_nodesList hJ ts (hJ h₀ hg) hts)

theorem forall₂_nodesList {J : β → γ → Prop} (hJ : ∀ {b₀ c a b c'}, J b₀ c → g c a = some (b, c') → J b c') :
    (ts : List (Rose α)) → {b₀ : β} → {c : γ} → {ts' : List (Rose β)} → J b₀ c → threadList g c ts = some ts' →
      List.Forall₂ (Made g J) (nodesList ts') (familiesList (leaves g) c ts)
  | [], _, _, _, _, h => by
      cases h
      exact .nil
  | t :: ts, b₀, c, ts', h₀, h => by
      obtain ⟨u, us, hu, hus, rfl⟩ := threadList_eq_some.mp h
      rw [nodesList, familiesList]
      exact List.rel_append (forall₂_nodes hJ t h₀ hu) (forall₂_nodesList hJ ts h₀ hus)
end

/-- With a root above the result, all nodes are made in the families. -/
theorem forall₂_root {J : β → γ → Prop} (hJ : ∀ {b₀ c a b c'}, J b₀ c → g c a = some (b, c') → J b c') {b₀ : β}
    {ts : List (Rose α)} {ts' : List (Rose β)} (h₀ : J b₀ c) (h : threadList g c ts = some ts') :
    List.Forall₂ (Made g J) (Rose.node b₀ ts').nodes ((c, ts.map label) :: familiesList (leaves g) c ts) := by
  rw [nodes]
  exact .cons ⟨h₀, forall₂_children h⟩ (forall₂_nodesList hJ ts h₀ h)

/-! ## Maps -/

mutual
/-- The families depend only on what the step sees of the value. -/
theorem families_map {step' : δ → α → Option δ} {p : γ → δ} (h : ∀ c a, step' (p c) a = (step c a).map p) :
    (t : Rose α) → (c : γ) → families step' (p c) t = (families step c t).map (Prod.map p id)
  | .node a ts, c => by
      rw [families, families, h]
      cases step c a with
      | none => rfl
      | some c' =>
          simp only [Option.map_some, List.map_cons]
          rw [familiesList_map h ts c']
          rfl

theorem familiesList_map {step' : δ → α → Option δ} {p : γ → δ} (h : ∀ c a, step' (p c) a = (step c a).map p) :
    (ts : List (Rose α)) → (c : γ) → familiesList step' (p c) ts = (familiesList step c ts).map (Prod.map p id)
  | [], _ => rfl
  | t :: ts, c => by
      rw [familiesList, familiesList, List.map_append, families_map h t c, familiesList_map h ts c]
end

mutual
/-- The families of a tree whose labels have been mapped. -/
theorem families_mapLabels {k : α → δ} {step : γ → δ → Option γ} : (t : Rose α) → (c : γ) →
    families step c (map k t) = (families (fun c a => step c (k a)) c t).map (Prod.map id (List.map k))
  | .node a ts, c => by
      rw [map, families, families]
      cases step c (k a) with
      | none => rfl
      | some c' =>
          simp only [List.map_cons]
          rw [familiesList_mapLabels ts c', mapList_eq, List.map_map]
          simp only [Prod.map_apply, id_eq, List.map_map]
          refine congrArg (fun as => (c', as) :: _) (List.map_congr_left fun t _ => label_map k t)

theorem familiesList_mapLabels {k : α → δ} {step : γ → δ → Option γ} : (ts : List (Rose α)) → (c : γ) →
    familiesList step c (mapList k ts) = (familiesList (fun c a => step c (k a)) c ts).map (Prod.map id (List.map k))
  | [], _ => rfl
  | t :: ts, c => by
      rw [mapList, familiesList, familiesList, List.map_append, families_mapLabels t c, familiesList_mapLabels ts c]
end

mutual
/-- A result keeps what its labels keep. -/
theorem map_thread {h : β → δ} {k : α → δ} (hk : ∀ {c a b c'}, g c a = some (b, c') → h b = k a) :
    (t : Rose α) → {c : γ} → {t' : Rose β} → thread g c t = some t' → map h t' = map k t
  | .node a ts, c, t', ht => by
      obtain ⟨b, c', ts', hg, hts, rfl⟩ := thread_eq_some.mp ht
      rw [map, map, hk hg, mapList_threadList hk ts hts]

theorem mapList_threadList {h : β → δ} {k : α → δ} (hk : ∀ {c a b c'}, g c a = some (b, c') → h b = k a) :
    (ts : List (Rose α)) → {c : γ} → {ts' : List (Rose β)} → threadList g c ts = some ts' → mapList h ts' = mapList k ts
  | [], _, _, hts => by
      cases hts
      rfl
  | t :: ts, c, ts', hts => by
      obtain ⟨u, us, hu, hus, rfl⟩ := threadList_eq_some.mp hts
      rw [mapList, mapList, map_thread hk t hu, mapList_threadList hk ts hus]
end

mutual
/-- Labels may be mapped before or after. -/
theorem thread_map (h : β → δ) (g : γ → α → Option (β × γ)) : (t : Rose α) → (c : γ) →
    thread (fun c a => (g c a).map (Prod.map h id)) c t = (thread g c t).map (map h)
  | .node a ts, c => by
      rw [thread, thread]
      cases g c a with
      | none => rfl
      | some out =>
          simp only [Option.map_some, Option.bind_some, Prod.map_fst, Prod.map_snd, id_eq, threadList_map h g ts,
            Option.map_map]
          rfl

theorem threadList_map (h : β → δ) (g : γ → α → Option (β × γ)) : (ts : List (Rose α)) → (c : γ) →
    threadList (fun c a => (g c a).map (Prod.map h id)) c ts = (threadList g c ts).map (mapList h)
  | [], _ => rfl
  | t :: ts, c => by
      rw [threadList, threadList, thread_map h g t c, threadList_map h g ts c]
      cases thread g c t with
      | none => rfl
      | some u =>
          simp only [Option.map_some, Option.bind_some, Option.map_map]
          rfl
end

mutual
/-- A callback that reads no value is a map. -/
theorem thread_pure (h : α → β) : (t : Rose α) → (c : γ) → thread (fun c a => some (h a, c)) c t = some (map h t)
  | .node a ts, c => by
      rw [thread, Option.bind_some, threadList_pure h ts c, map]
      rfl

theorem threadList_pure (h : α → β) : (ts : List (Rose α)) → (c : γ) →
    threadList (fun c a => some (h a, c)) c ts = some (mapList h ts)
  | [], _ => rfl
  | t :: ts, c => by
      rw [threadList, thread_pure h t c, threadList_pure h ts c, mapList]
      rfl
end

/-! ## Counting on the way -/

mutual
/-- The walk with a counter that the callback is given and changes. -/
def threadCount (f : γ → α → Int → Option (β × γ × Int)) (c : γ) (n : Int) : Rose α → Option (Rose β × Int)
  | .node a ts => (f c a n).bind fun out =>
      (threadCountList f out.2.1 out.2.2 ts).map fun r => (.node out.1 r.1, r.2)

def threadCountList (f : γ → α → Int → Option (β × γ × Int)) (c : γ) (n : Int) :
    List (Rose α) → Option (List (Rose β) × Int)
  | [] => some ([], n)
  | t :: ts => (threadCount f c n t).bind fun r =>
      (threadCountList f c r.2 ts).map fun rs => (r.1 :: rs.1, rs.2)
end

mutual
/-- A callback that only adds to the counter may do so in the end. -/
theorem threadCount_eq (g : γ → α → Option (β × γ)) (w : β → Int) : (t : Rose α) → (c : γ) → (n : Int) →
    threadCount (fun c a n => (g c a).map fun out => (out.1, out.2, n + w out.1)) c n t =
      (thread g c t).map fun t' => (t', n + (t'.labels.map w).sum)
  | .node a ts, c, n => by
      rw [threadCount, thread]
      cases g c a with
      | none => rfl
      | some out =>
          simp only [Option.map_some, Option.bind_some, threadCountList_eq g w ts, Option.map_map]
          refine congrArg (fun f => Option.map f (threadList g out.2 ts)) (funext fun ts' => ?_)
          simp only [Function.comp_apply, labels_node, List.map_cons, List.sum_cons, Int.add_assoc]

theorem threadCountList_eq (g : γ → α → Option (β × γ)) (w : β → Int) : (ts : List (Rose α)) → (c : γ) → (n : Int) →
    threadCountList (fun c a n => (g c a).map fun out => (out.1, out.2, n + w out.1)) c n ts =
      (threadList g c ts).map fun ts' => (ts', n + ((labelsList ts').map w).sum)
  | [], c, n => by
      rw [threadCountList, threadList]
      simp
  | t :: ts, c, n => by
      rw [threadCountList, threadList, threadCount_eq g w t c n]
      cases thread g c t with
      | none => rfl
      | some u =>
          simp only [Option.map_some, Option.bind_some, threadCountList_eq g w ts, Option.map_map]
          refine congrArg (fun f => Option.map f (threadList g c ts)) (funext fun ts' => ?_)
          simp only [Function.comp_apply, labelsList_cons, List.map_append, List.sum_append, Int.add_assoc]
end

end Chessrepeat.Lib.Rose
