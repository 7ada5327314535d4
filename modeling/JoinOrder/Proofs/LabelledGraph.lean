import JoinOrder.LabelledGraph
import JoinOrder.Proofs.Components
import JoinOrder.Proofs.Handle
import JoinOrder.Proofs.Ordered
import JoinOrder.Proofs.Sorting

/-!
# Graphs of ordinals

A labelled graph whose nodes are ordinals is built as it is drawn, and the search through some of
its nodes finds their connected components.
-/

namespace JoinOrder

/-! ## Ordinals -/

namespace Value

variable {i j : Nat} {xs : List Nat}

theorem same_ofNat (i j : Nat) : same (ofNat i) (ofNat j) = decide (i = j) := by
  rw [same, ofNat, ofNat, eq_int, isOne, Bool.false_or]
  · simp only [Int.natCast_inj]
  · simp
  · simp

theorem any_same_ofNat : (xs.map ofNat).any (same · (ofNat i)) = decide (i ∈ xs) := by
  rw [Bool.eq_iff_iff, List.any_map, List.any_eq_true, decide_eq_true_iff]
  simp only [Function.comp_apply, same_ofNat, decide_eq_true_iff, exists_eq_right]

/-- Each of some ordinals is found once. -/
theorem distinct_ofNat (xs : List Nat) : ∃ ys : List Nat,
    distinct (xs.map ofNat) = ys.map ofNat ∧ ys.Nodup ∧ ∀ i, i ∈ ys ↔ i ∈ xs := by
  have hfold : ∀ found : List Nat, found.Nodup → ∃ ys : List Nat,
      (xs.map ofNat).foldl (fun found x => if found.any (same · x) then found else x :: found)
        (found.map ofNat) = ys.map ofNat ∧ ys.Nodup ∧ ∀ i, i ∈ ys ↔ i ∈ found ∨ i ∈ xs := by
    induction xs with
    | nil => exact fun found hn => ⟨found, rfl, hn, by simp⟩
    | cons x xs ih =>
      intro found hn
      rw [List.map_cons, List.foldl_cons, any_same_ofNat]
      by_cases hx : x ∈ found
      · rw [if_pos (decide_eq_true hx)]
        obtain ⟨ys, hys, hnd, hmem⟩ := ih found hn
        refine ⟨ys, hys, hnd, fun i => ?_⟩
        rw [hmem, List.mem_cons]
        refine ⟨Or.imp_right .inr, ?_⟩
        rintro (hi | rfl | hi)
        · exact .inl hi
        · exact .inl hx
        · exact .inr hi
      · rw [if_neg (by simpa using hx), ← List.map_cons]
        obtain ⟨ys, hys, hnd, hmem⟩ := ih (x :: found) (List.nodup_cons.2 ⟨hx, hn⟩)
        refine ⟨ys, hys, hnd, fun i => ?_⟩
        rw [hmem, List.mem_cons, List.mem_cons, or_assoc, or_left_comm]
  obtain ⟨ys, hys, hn, hmem⟩ := hfold [] List.nodup_nil
  refine ⟨ys.reverse, ?_, List.nodup_reverse.2 hn, fun i => ?_⟩
  · rw [distinct, ← List.map_nil (f := ofNat), hys, List.map_reverse]
  · rw [List.mem_reverse, hmem]
    simp

end Value

namespace LabelledGraph

open Components (Reaches Connected IsComponent Divides Ordered)

variable {α : Type} {nodes : List Nat} {near near' : Nat → List (Nat × α)} {i j : Nat} {label : α}

/-! ## Building a graph -/

/-- The neighbours of a node with the labels of the edges to them. -/
def beside (es : List (Nat × α)) : List (Value × α) := es.map fun e => (.ofNat e.1, e.2)

/-- The graph of some ordinals, each with its neighbours. -/
def ordinal (nodes : List Nat) (near : Nat → List (Nat × α)) : LabelledGraph α where
  nodes := nodes.map fun i => (.ofNat i, beside (near i))

/-- Each arc is drawn, and only they are; of arcs between the same nodes one stays. -/
structure Draws (arcs : List (Nat × Nat × α)) (near : Nat → List (Nat × α)) : Prop where
  nodup : ∀ i, ((near i).map Prod.fst).Nodup
  sound : ∀ i j label, (j, label) ∈ near i → (i, j, label) ∈ arcs
  complete : ∀ i j label, (i, j, label) ∈ arcs → j ∈ (near i).map Prod.fst

/-- A label is put beside a neighbour, which may be new. -/
theorem put_beside (es : List (Nat × α)) (j : Nat) (label : α) : ∃ es' : List (Nat × α),
    Dictionary.put (beside es) (.ofNat j) label = beside es' ∧
      (∀ e ∈ es', e ∈ es ∨ e = (j, label)) ∧
      (∀ k, k ∈ es'.map Prod.fst ↔ k ∈ es.map Prod.fst ∨ k = j) ∧
      ((es.map Prod.fst).Nodup → (es'.map Prod.fst).Nodup) := by
  induction es with
  | nil => exact ⟨[(j, label)], rfl, by simp, by simp, fun _ => by simp⟩
  | cons e es ih =>
    obtain ⟨k, old⟩ := e
    rw [beside, List.map_cons, Dictionary.put, Value.same_ofNat]
    by_cases hk : k = j
    · subst hk
      refine ⟨(k, label) :: es, by simp [beside], ?_, ?_, id⟩
      · intro e he
        rcases List.mem_cons.1 he with rfl | he
        · exact .inr rfl
        · exact .inl (List.mem_cons_of_mem _ he)
      · intro i
        simp only [List.map_cons, List.mem_cons]
        tauto
    · obtain ⟨es', hput, hsub, hkeys, hn⟩ := ih
      rw [if_neg (by simpa using hk)]
      refine ⟨(k, old) :: es', by rw [← beside, hput]; rfl, ?_, ?_, ?_⟩
      · intro e he
        rcases List.mem_cons.1 he with rfl | he
        · exact .inl List.mem_cons_self
        · exact (hsub e he).imp_left (List.mem_cons_of_mem _)
      · intro i
        rw [List.map_cons, List.mem_cons, hkeys, List.map_cons, List.mem_cons, or_assoc]
      · rw [List.map_cons, List.nodup_cons, List.map_cons, List.nodup_cons, hkeys]
        exact fun h => ⟨fun hm => hm.elim h.1 hk, hn h.2⟩

theorem contains_ordinal : (ordinal nodes near).contains (.ofNat i) = decide (i ∈ nodes) := by
  rw [contains, ordinal, List.any_map, ← Value.any_same_ofNat, List.any_map]
  rfl

theorem addNode_of_mem (hi : i ∈ nodes) :
    (ordinal nodes near).addNode (.ofNat i) = .ok (ordinal nodes near) := by
  unfold addNode
  rw [contains_ordinal, decide_eq_true hi]
  rfl

theorem addNode_of_not_mem (hi : i ∉ nodes) (hn : near i = []) :
    (ordinal nodes near).addNode (.ofNat i) = .ok (ordinal (nodes ++ [i]) near) := by
  unfold addNode
  rw [contains_ordinal, decide_eq_false hi, ordinal, ordinal, List.map_append, List.map_singleton,
    hn]
  rfl

theorem addNodes (hn : nodes.Nodup) :
    (nodes.map Value.ofNat).foldlM addNode ⟨[]⟩ = .ok (ordinal (α := α) nodes fun _ => []) := by
  have hfold : ∀ before : List Nat, (before ++ nodes).Nodup →
      (nodes.map Value.ofNat).foldlM addNode (ordinal (α := α) before fun _ => []) =
        .ok (ordinal (before ++ nodes) fun _ => []) := by
    clear hn
    induction nodes with
    | nil => exact fun before _ => by rw [List.append_nil]; rfl
    | cons i nodes ih =>
      intro before hn
      have hi : i ∉ before := fun hm =>
        (List.nodup_append'.1 hn).2.2 hm List.mem_cons_self
      rw [List.append_cons] at hn ⊢
      rw [List.map_cons, List.foldlM_cons, addNode_of_not_mem hi rfl, Checked.bind_ok, ih _ hn]
  exact hfold [] hn

/-- An arc is drawn from its first node. -/
theorem Draws.addNeighbour {arcs : List (Nat × Nat × α)} (H : Draws arcs near)
    (nodes : List Nat) (i j : Nat) (label : α) : ∃ near', (ordinal nodes near).addNeighbour (.ofNat i) (.ofNat j) label =
      ordinal nodes near' ∧ Draws (arcs ++ [(i, j, label)]) near' := by
  obtain ⟨es, hput, hsub, hkeys, hn⟩ := put_beside (near i) j label
  refine ⟨Function.update near i es, ?_, fun k => ?_, fun k l m h => ?_, fun k l m h => ?_⟩
  · rw [LabelledGraph.addNeighbour, ordinal, ordinal, List.map_map]
    refine congrArg _ (List.map_congr_left fun k _ => ?_)
    simp only [Function.comp_apply, Value.same_ofNat]
    by_cases hk : k = i
    · rw [if_pos (decide_eq_true hk), hk, Function.update_self, hput]
    · rw [if_neg (by simpa using hk), Function.update_of_ne hk]
  · by_cases hk : k = i
    · rw [hk, Function.update_self]
      exact hn (H.nodup i)
    · rw [Function.update_of_ne hk]
      exact H.nodup k
  · rw [List.mem_append, List.mem_singleton]
    by_cases hk : k = i
    · subst hk
      rw [Function.update_self] at h
      exact (hsub _ h).imp (H.sound k l m) fun h => by rw [h]
    · rw [Function.update_of_ne hk] at h
      exact .inl (H.sound k l m h)
  · rw [List.mem_append, List.mem_singleton] at h
    by_cases hk : k = i
    · subst hk
      rw [Function.update_self, hkeys]
      exact h.imp (H.complete k l m) fun h => congrArg (·.2.1) h
    · rw [Function.update_of_ne hk]
      exact H.complete k l m (h.resolve_right fun h => hk (congrArg (·.1) h))

/-- An edge as its two arcs. -/
def arcs (edges : List (Nat × Nat × α)) : List (Nat × Nat × α) :=
  edges.flatMap fun (i, j, label) => [(i, j, label), (j, i, label)]

theorem mem_arcs {edges : List (Nat × Nat × α)} :
    (i, j, label) ∈ arcs edges ↔ (i, j, label) ∈ edges ∨ (j, i, label) ∈ edges := by
  simp only [arcs, List.mem_flatMap, List.mem_cons, List.not_mem_nil, or_false, Prod.exists,
    Prod.mk.injEq]
  constructor
  · rintro ⟨a, b, l, he, ⟨rfl, rfl, rfl⟩ | ⟨rfl, rfl, rfl⟩⟩
    · exact .inl he
    · exact .inr he
  · rintro (he | he)
    · exact ⟨i, j, label, he, .inl ⟨rfl, rfl, rfl⟩⟩
    · exact ⟨j, i, label, he, .inr ⟨rfl, rfl, rfl⟩⟩

/-- An edge between nodes that are there is drawn from both. -/
theorem Draws.addEdge {edges : List (Nat × Nat × α)} (H : Draws (arcs edges) near)
    (hi : i ∈ nodes) (hj : j ∈ nodes) (label : α) :
    ∃ near', (ordinal nodes near).addEdge ⟨.ofNat i, .ofNat j, label⟩ = .ok (ordinal nodes near') ∧
      Draws (arcs (edges ++ [(i, j, label)])) near' := by
  obtain ⟨near₁, h₁, H₁⟩ := H.addNeighbour nodes i j label
  obtain ⟨near₂, h₂, H₂⟩ := H₁.addNeighbour nodes j i label
  refine ⟨near₂, ?_, ?_⟩
  · rw [LabelledGraph.addEdge, addNode_of_mem hi, Checked.bind_ok, addNode_of_mem hj,
      Checked.bind_ok, h₁, h₂]
    rfl
  · have happ : arcs (edges ++ [(i, j, label)]) =
        arcs edges ++ [(i, j, label)] ++ [(j, i, label)] := by
      rw [arcs, List.flatMap_append, List.append_assoc]
      rfl
    rwa [happ]

/-- The graph of nodes that occur once and of edges between them. -/
theorem build_spec {edges : List (Nat × Nat × α)} (hn : nodes.Nodup)
    (he : ∀ e ∈ edges, e.1 ∈ nodes ∧ e.2.1 ∈ nodes) :
    ∃ near, build (nodes.map .ofNat) (edges.map fun (i, j, label) => ⟨.ofNat i, .ofNat j, label⟩) =
      .ok (ordinal nodes near) ∧ Draws (arcs edges) near := by
  have hfold : ∀ (drawn : List (Nat × Nat × α)) (near : Nat → List (Nat × α)),
      Draws (arcs drawn) near → ∃ near',
        (edges.map fun (i, j, label) => (⟨.ofNat i, .ofNat j, label⟩ : LabelledEdge α)).foldlM
          addEdge (ordinal nodes near) = .ok (ordinal nodes near') ∧
        Draws (arcs (drawn ++ edges)) near' := by
    induction edges with
    | nil => exact fun drawn near H => ⟨near, rfl, by rwa [List.append_nil]⟩
    | cons e edges ih =>
      intro drawn near H
      rw [List.forall_mem_cons] at he
      obtain ⟨⟨hi, hj⟩, he⟩ := he
      obtain ⟨near₁, h₁, H₁⟩ := H.addEdge hi hj e.2.2
      obtain ⟨near₂, h₂, H₂⟩ := ih he _ near₁ H₁
      refine ⟨near₂, ?_, by rwa [List.append_cons]⟩
      rw [List.map_cons, List.foldlM_cons, h₁, Checked.bind_ok, h₂]
  obtain ⟨near, h, H⟩ := hfold [] (fun _ => []) ⟨fun _ => List.nodup_nil, nofun, nofun⟩
  refine ⟨near, ?_, H⟩
  rw [build, addNodes hn, Checked.bind_ok, h]

/-! ## Searching a graph -/

variable {linked : Nat → Nat → Bool} {step : Value → Checked (List Value)} {classes : List (List Nat)}
  {x : Nat} {rest processed queue : List Nat} {fuel : Nat}

/-- A step leads to the nodes among some nodes that are linked. -/
def Follows (step : Value → Checked (List Value)) (linked : Nat → Nat → Bool) (nodes : List Nat) :
    Prop :=
  ∀ i ∈ nodes, ∃ next : List Nat, step (.ofNat i) = .ok (next.map .ofNat) ∧ next.Nodup ∧
    ∀ j, j ∈ next ↔ j ∈ nodes ∧ linked i j = true

/-- A search has seen the nodes that it has processed or keeps in its queue: each once, reached from
the first one, and with the neighbours of those it has processed. -/
structure Seen (linked : Nat → Nat → Bool) (nodes : List Nat) (x : Nat)
    (processed queue : List Nat) : Prop where
  nodup : (processed ++ queue).Nodup
  subset : ∀ i ∈ processed ++ queue, i ∈ nodes
  first : x ∈ processed ++ queue
  reached : ∀ i ∈ processed ++ queue, Reaches linked (processed ++ queue) x i
  closed : ∀ i ∈ processed, ∀ j ∈ nodes, linked i j = true → j ∈ processed ++ queue

theorem Seen.start (hx : x ∈ nodes) : Seen linked nodes x [] [x] where
  nodup := List.nodup_singleton x
  subset _ hi := List.mem_singleton.1 hi ▸ hx
  first := List.mem_singleton_self x
  reached _ hi := List.mem_singleton.1 hi ▸ .refl
  closed := nofun

/-- The first node of the queue is processed, and its new neighbours are added. -/
theorem Seen.advance {next : List Nat} (H : Seen linked nodes x processed (i :: queue))
    (hn : next.Nodup) (hnext : ∀ j, j ∈ next ↔ j ∈ nodes ∧ linked i j = true) :
    Seen linked nodes x (processed ++ [i])
      (queue ++ next.filter (· ∉ processed ++ i :: queue)) := by
  have heq : processed ++ [i] ++ (queue ++ next.filter (· ∉ processed ++ i :: queue)) =
      processed ++ i :: queue ++ next.filter (· ∉ processed ++ i :: queue) := by simp
  have hfound : ∀ j, j ∈ next.filter (· ∉ processed ++ i :: queue) ↔
      (j ∈ nodes ∧ linked i j = true) ∧ j ∉ processed ++ i :: queue := by
    intro j
    rw [List.mem_filter, hnext, decide_eq_true_iff]
  have hi : i ∈ processed ++ i :: queue := List.mem_append_right _ List.mem_cons_self
  have hleft : ∀ j ∈ processed ++ i :: queue,
      j ∈ processed ++ i :: queue ++ next.filter (· ∉ processed ++ i :: queue) :=
    fun j hj => List.mem_append_left _ hj
  constructor
  · rw [heq]
    refine H.nodup.append (hn.filter _) fun j hj hf => ((hfound j).1 hf).2 hj
  · rw [heq]
    intro j hj
    rcases List.mem_append.1 hj with hj | hj
    · exact H.subset j hj
    · exact ((hfound j).1 hj).1.1
  · rw [heq]
    exact hleft x H.first
  · rw [heq]
    intro j hj
    rcases List.mem_append.1 hj with hj | hf
    · exact (H.reached j hj).mono hleft
    · exact ((H.reached i hi).mono hleft).tail ⟨hleft i hi, hj, ((hfound j).1 hf).1.2⟩
  · rw [heq]
    intro k hk j hj hl
    by_cases hs : j ∈ processed ++ i :: queue
    · exact hleft j hs
    · rcases List.mem_append.1 hk with hk | hk
      · exact hleft j (H.closed k hk j hj hl)
      · rw [List.mem_singleton.1 hk] at hl
        exact List.mem_append_right _ ((hfound j).2 ⟨⟨hj, hl⟩, hs⟩)

/-- As many nodes as there are cannot miss any of them. -/
theorem Seen.mem_of_length (H : Seen linked nodes x processed queue)
    (hlen : nodes.length ≤ (processed ++ queue).length) : ∀ i ∈ nodes, i ∈ processed ++ queue :=
  fun _ hi => ((List.subperm_of_subset H.nodup H.subset).perm_of_length_le hlen).mem_iff.2 hi

/-- What a search ends with: the component of its first node, which is among the nodes that were
left. -/
structure Finds (linked : Nat → Nat → Bool) (nodes rest : List Nat) (x : Nat) (c : List Nat) :
    Prop where
  nodup : c.Nodup
  mem : x ∈ c
  subset : ∀ i ∈ c, i ∈ rest
  isComponent : IsComponent linked nodes c

/-- Nodes whose neighbours have all been seen are a component, where no link leads out of `rest`. -/
theorem Seen.finds (hs : ∀ x y, linked x y = linked y x) (H : Seen linked rest x processed queue)
    (hrest : ∀ i ∈ rest, i ∈ nodes) (hout : ∀ i ∈ rest, ∀ j ∈ nodes, linked i j = true → j ∈ rest)
    (hc : ∀ i ∈ processed ++ queue, ∀ j ∈ rest, linked i j = true → j ∈ processed ++ queue) :
    Finds linked nodes rest x (processed ++ queue) where
  nodup := H.nodup
  mem := H.first
  subset := H.subset
  isComponent :=
    { nonempty := List.ne_nil_of_mem H.first
      subset := fun i hi => hrest i (H.subset i hi)
      connected := .of_reaches hs H.reached
      closed := fun i hi j hj hl => hc i hi j (hout i (H.subset i hi) j hj hl) hl }

/-- A step of the search adds the neighbours that have not been seen. -/
theorem search_cons {next seen : List Nat} {limit : Nat}
    (hnext : step (.ofNat i) = .ok (next.map .ofNat)) :
    search step limit (fuel + 1) ((i :: queue).map .ofNat) (seen.map .ofNat) =
      if (seen ++ next.filter (· ∉ seen)).length = limit then
        .ok ((seen ++ next.filter (· ∉ seen)).map .ofNat)
      else search step limit fuel ((queue ++ next.filter (· ∉ seen)).map .ofNat)
        ((seen ++ next.filter (· ∉ seen)).map .ofNat) := by
  have hfound : (next.map Value.ofNat).filter (fun y => !(seen.map Value.ofNat).any (Value.same · y)) =
      (next.filter (· ∉ seen)).map Value.ofNat := by
    rw [List.filter_map]
    refine congrArg _ (List.filter_congr fun j _ => ?_)
    rw [Function.comp_apply, Value.any_same_ofNat, decide_not]
  simp only [List.map_cons, search, hnext, Checked.bind_ok, hfound, List.map_append,
    List.length_append, List.length_map, Checked.pure_def]

/-- The search from a node ends with its component, where `rest` has the nodes that may be in it. -/
theorem search_spec (hs : ∀ x y, linked x y = linked y x) (hstep : Follows step linked nodes)
    (hrest : ∀ i ∈ rest, i ∈ nodes) (hout : ∀ i ∈ rest, ∀ j ∈ nodes, linked i j = true → j ∈ rest)
    (H : Seen linked rest x processed queue) (hf : rest.length ≤ fuel + processed.length) :
    ∃ c : List Nat, search step rest.length fuel (queue.map .ofNat)
        ((processed ++ queue).map .ofNat) = .ok (c.map .ofNat) ∧ Finds linked nodes rest x c := by
  induction fuel generalizing processed queue with
  | zero =>
    have hlen : rest.length ≤ (processed ++ queue).length := by
      rw [List.length_append]
      omega
    refine ⟨processed ++ queue, by simp [search], H.finds hs hrest hout fun _ _ j hj _ => ?_⟩
    exact H.mem_of_length hlen j hj
  | succ fuel ih =>
    cases queue with
    | nil =>
      refine ⟨processed ++ [], by simp [search], H.finds hs hrest hout fun i hi => ?_⟩
      exact H.closed i (by rwa [List.append_nil] at hi)
    | cons i queue =>
      have hi : i ∈ rest := H.subset i (List.mem_append_right _ List.mem_cons_self)
      obtain ⟨next, hnext, hn, hmem⟩ := hstep i (hrest i hi)
      have hmem' : ∀ j, j ∈ next ↔ j ∈ rest ∧ linked i j = true := by
        intro j
        rw [hmem]
        exact ⟨fun h => ⟨hout i hi j h.1 h.2, h.2⟩, fun h => ⟨hrest j h.1, h.2⟩⟩
      have H' := H.advance hn hmem'
      have heq : processed ++ i :: queue ++ next.filter (· ∉ processed ++ i :: queue) =
          processed ++ [i] ++ (queue ++ next.filter (· ∉ processed ++ i :: queue)) := by simp
      rw [search_cons hnext, heq]
      split
      · next hlen =>
        refine ⟨_, rfl, H'.finds hs hrest hout fun _ _ j hj _ => ?_⟩
        exact H'.mem_of_length hlen.ge j hj
      · exact ih H' (by rw [List.length_append, List.length_singleton]; omega)

/-! ## Components one after another -/

/-- Some classes are components, none of which shares a node with another. -/
structure Found (linked : Nat → Nat → Bool) (nodes : List Nat) (classes : List (List Nat)) :
    Prop where
  nodup : classes.flatten.Nodup
  isComponent : ∀ c ∈ classes, IsComponent linked nodes c

theorem Found.subset (H : Found linked nodes classes) : ∀ i ∈ classes.flatten, i ∈ nodes := by
  intro i hi
  obtain ⟨c, hc, hic⟩ := List.mem_flatten.1 hi
  exact (H.isComponent c hc).subset i hic

/-- No link leads from a class to a node that is in none. -/
theorem Found.closed (H : Found linked nodes classes) :
    ∀ i ∈ classes.flatten, ∀ j ∈ nodes, linked i j = true → j ∈ classes.flatten := by
  intro i hi j hj hl
  obtain ⟨c, hc, hic⟩ := List.mem_flatten.1 hi
  exact List.mem_flatten.2 ⟨c, hc, (H.isComponent c hc).closed i hic j hj hl⟩

/-- Components that have all nodes divide them. -/
theorem Found.divides (H : Found linked nodes classes) (hn : nodes.Nodup)
    (hall : ∀ i ∈ nodes, i ∈ classes.flatten) : Divides linked nodes classes where
  perm := (List.perm_ext_iff_of_nodup H.nodup hn).2 fun i => ⟨H.subset i, hall i⟩
  nonempty c hc := (H.isComponent c hc).nonempty
  connected c hc := (H.isComponent c hc).connected
  apart := by
    refine (List.nodup_flatten.1 H.nodup).2.imp_of_mem fun {c d} hc hd hdis x hx y hy => ?_
    by_contra hl
    rw [Bool.not_eq_false] at hl
    exact hdis ((H.isComponent c hc).closed x hx y ((H.isComponent d hd).subset y hy) hl) hy

/-- A component that is found among the other nodes. -/
theorem Found.add {c : List Nat} (H : Found linked nodes classes)
    (F : Finds linked nodes (nodes.filter (· ∉ classes.flatten)) x c) :
    Found linked nodes (classes ++ [c]) where
  nodup := by
    rw [List.flatten_append, List.flatten_singleton]
    refine H.nodup.append F.nodup fun i hi hc => ?_
    exact of_decide_eq_true (List.mem_filter.1 (F.subset i hc)).2 hi
  isComponent d hd := by
    rcases List.mem_append.1 hd with hd | hd
    · exact H.isComponent d hd
    · exact List.mem_singleton.1 hd ▸ F.isComponent

/-- No link leads from the nodes that are in no class to one of them. -/
theorem Found.closed_rest (hs : ∀ x y, linked x y = linked y x) (H : Found linked nodes classes) :
    ∀ i ∈ nodes.filter (· ∉ classes.flatten), ∀ j ∈ nodes, linked i j = true →
      j ∈ nodes.filter (· ∉ classes.flatten) := by
  intro i hi j hj hl
  rw [List.mem_filter, decide_eq_true_iff] at hi ⊢
  exact ⟨hj, fun hjc => hi.2 (H.closed j hjc i hi.1 (hs i j ▸ hl))⟩

theorem Found.length_rest (H : Found linked nodes classes) (hn : nodes.Nodup) :
    (nodes.filter (· ∉ classes.flatten)).length = nodes.length - classes.flatten.length := by
  have hin : (nodes.filter (· ∈ classes.flatten)).Perm classes.flatten := by
    refine (List.perm_ext_iff_of_nodup (hn.filter _) H.nodup).2 fun i => ?_
    rw [List.mem_filter, decide_eq_true_iff]
    exact ⟨And.right, fun hi => ⟨H.subset i hi, hi⟩⟩
  have hlen := (List.filter_append_perm (· ∈ classes.flatten) nodes).length_eq
  simp only [List.length_append, hin.length_eq, decide_not] at hlen ⊢
  omega

/-- The components of some nodes, each found from the first of the nodes to start from that is in
none of those before it. -/
theorem components_spec {starts : List Nat} (hs : ∀ x y, linked x y = linked y x)
    (hstep : Follows step linked nodes) (hn : nodes.Nodup) (hstarts : ∀ i ∈ starts, i ∈ nodes)
    (H : Found linked nodes classes) :
    ∃ classes' : List (List Nat), components step nodes.length
        (classes.map (·.map .ofNat)) (starts.map .ofNat) = .ok (classes'.map (·.map .ofNat)) ∧
      Found linked nodes classes' ∧
      ∀ i, i ∈ classes.flatten ∨ i ∈ starts → i ∈ classes'.flatten := by
  induction starts generalizing classes with
  | nil => exact ⟨classes, rfl, H, fun i hi => hi.resolve_right List.not_mem_nil⟩
  | cons x starts ih =>
    rw [List.forall_mem_cons] at hstarts
    obtain ⟨hx, hstarts⟩ := hstarts
    have hflat : (classes.map (·.map Value.ofNat)).flatten = classes.flatten.map Value.ofNat :=
      List.map_flatten.symm
    by_cases hxc : x ∈ classes.flatten
    · obtain ⟨classes', h, H', hmem⟩ := ih hstarts H
      refine ⟨classes', ?_, H', ?_⟩
      · simp only [List.map_cons, components, hflat, Value.any_same_ofNat, decide_eq_true hxc,
          if_true, h]
      · rintro i (hi | hi)
        · exact hmem i (.inl hi)
        · rcases List.mem_cons.1 hi with rfl | hi
          · exact hmem i (.inl hxc)
          · exact hmem i (.inr hi)
    · have hxr : x ∈ nodes.filter (· ∉ classes.flatten) :=
        List.mem_filter.2 ⟨hx, decide_eq_true hxc⟩
      obtain ⟨c, hc, F⟩ := search_spec hs hstep (fun _ => List.mem_of_mem_filter)
        (H.closed_rest hs) (Seen.start hxr) (List.length_filter_le _ nodes)
      obtain ⟨classes', h, H', hmem⟩ := ih hstarts (H.add F)
      refine ⟨classes', ?_, H', ?_⟩
      · rw [H.length_rest hn] at hc
        rw [List.map_append, List.map_singleton] at h
        simp only [List.map_nil, List.map_cons, List.nil_append] at hc
        simp only [List.map_cons, components, hflat, Value.any_same_ofNat, decide_eq_false hxc,
          Bool.false_eq_true, if_false, List.length_map, hc, Checked.bind_ok, h]
      · rw [List.flatten_append, List.flatten_singleton] at hmem
        rintro i (hi | hi)
        · exact hmem i (.inl (List.mem_append_left _ hi))
        · rcases List.mem_cons.1 hi with rfl | hi
          · exact hmem i (.inl (List.mem_append_right _ F.mem))
          · exact hmem i (.inr hi)

/-! ## Neighbours in the graph of ordinals -/

theorem find_ordinal (hi : i ∈ nodes) :
    (ordinal nodes near).nodes.find? (fun node => Value.same node.1 (.ofNat i)) =
      some (.ofNat i, beside (near i)) := by
  have hp : (fun node => Value.same node.1 (.ofNat i)) ∘
      (fun i => (Value.ofNat i, beside (near i))) = fun j => j == i := by
    funext j
    rw [Function.comp_apply, Value.same_ofNat, beq_eq_decide]
  have hfind : nodes.find? (fun j => j == i) = some i := by
    cases h : nodes.find? (fun j => j == i) with
    | none => exact absurd BEq.rfl (List.find?_eq_none.1 h i hi)
    | some j =>
      have hj := List.find?_some h
      rw [eq_of_beq hj]
  rw [ordinal, List.find?_map, hp, hfind]
  rfl

/-- Where the labels of a graph tell which nodes are linked, its edges lead to the linked nodes. -/
theorem follows_ordinal {among : List Nat} {arcs : List (Nat × Nat × α)}
    {connects : α → Checked Bool} (D : Draws arcs near) (hsub : ∀ i ∈ among, i ∈ nodes)
    (hconnects : ∀ i j label, (i, j, label) ∈ arcs → connects label = .ok (linked i j))
    (hlinked : ∀ i ∈ nodes, ∀ j ∈ nodes, linked i j = true → ∃ label, (i, j, label) ∈ arcs) :
    Follows ((ordinal nodes near).linked (among.map .ofNat) connects) linked among := by
  intro i hi
  have hfilter : ((beside (near i)).filter fun e => (among.map Value.ofNat).any (Value.same · e.1)) =
      beside ((near i).filter fun e => e.1 ∈ among) := by
    rw [beside, List.filter_map]
    refine congrArg _ (List.filter_congr fun e _ => ?_)
    rw [Function.comp_apply, Value.any_same_ofNat]
  have htest : (beside ((near i).filter fun e => e.1 ∈ among)).filterM (fun e => connects e.2) =
      .ok (beside (((near i).filter fun e => e.1 ∈ among).filter fun e => linked i e.1)) := by
    exact Checked.filterM_map fun e he =>
      hconnects i e.1 e.2 (D.sound i e.1 e.2 (List.mem_of_mem_filter he))
  refine ⟨(((near i).filter fun e => e.1 ∈ among).filter fun e => linked i e.1).map Prod.fst,
    ?_, ?_, fun j => ?_⟩
  · simp only [LabelledGraph.linked, find_ordinal (hsub i hi)]
    rw [hfilter, htest, Checked.bind_ok, beside, List.map_map, List.map_map]
    rfl
  · exact (D.nodup i).sublist ((List.filter_sublist.trans List.filter_sublist).map _)
  · rw [List.mem_map]
    constructor
    · rintro ⟨e, he, rfl⟩
      rw [List.mem_filter, List.mem_filter, decide_eq_true_iff] at he
      exact ⟨he.1.2, he.2⟩
    · rintro ⟨hj, hl⟩
      obtain ⟨label, harc⟩ := hlinked i (hsub i hi) j (hsub j hj) hl
      obtain ⟨e, he, rfl⟩ := List.mem_map.1 (D.complete i j label harc)
      refine ⟨e, ?_, rfl⟩
      rw [List.mem_filter, List.mem_filter, decide_eq_true_iff]
      exact ⟨⟨he, hj⟩, hl⟩

/-! ## Components in order -/

theorem sort_ofNat {xs : List Nat} (hn : xs.Nodup) : ∃ ys : List Nat,
    Sorting.sort Value.lt (xs.map .ofNat) = .ok (ys.map .ofNat) ∧ ys.Perm xs ∧
      ys.Pairwise (· < ·) := by
  have hlt : Sorting.Ranks Value.lt OrderedClass.ints.code OrderedClass.ints.carrier :=
    fun _ _ => OrderedClass.ints.lt_eq
  have hints : ∀ i ∈ xs, OrderedClass.ints.carrier (Value.ofNat i) := fun i _ => ⟨i, rfl⟩
  obtain ⟨ys, hys, hp, hsorted⟩ := Sorting.sort_map hlt hints
  refine ⟨ys, hys, hp, (hsorted.and (hp.nodup_iff.2 hn)).imp fun h => ?_⟩
  exact Nat.lt_of_le_of_ne (Int.ofNat_le.1 h.1) h.2

theorem sort_classes {classes : List (List Nat)} (hn : ∀ c ∈ classes, c.Nodup) :
    ∃ sorted : List (List Nat),
      (classes.map (·.map Value.ofNat)).mapM (Sorting.sort Value.lt) =
        .ok (sorted.map (·.map .ofNat)) ∧
      List.Forall₂ List.Perm classes sorted ∧ ∀ c ∈ sorted, c.Pairwise (· < ·) := by
  induction classes with
  | nil => exact ⟨[], rfl, .nil, nofun⟩
  | cons c classes ih =>
    rw [List.forall_mem_cons] at hn
    obtain ⟨d, hd, hp, hlt⟩ := sort_ofNat hn.1
    obtain ⟨sorted, hsorted, hps, hlts⟩ := ih hn.2
    refine ⟨d :: sorted, ?_, .cons hp.symm hps, List.forall_mem_cons.2 ⟨hlt, hlts⟩⟩
    rw [List.map_cons, List.mapM_cons, hd, Checked.bind_ok, hsorted, Checked.bind_ok,
      Checked.pure_def, List.map_cons]

/-- Classes that share no node, each in increasing order, are listed by their least nodes. -/
theorem sort_leading {classes : List (List Nat)} (hne : ∀ c ∈ classes, c ≠ [])
    (hlt : ∀ c ∈ classes, c.Pairwise (· < ·)) (hdis : classes.Pairwise List.Disjoint) :
    ∃ sorted : List (List Nat),
      Sorting.sort (fun a b => Value.lt (a.headD .null) (b.headD .null))
          (classes.map (·.map Value.ofNat)) = .ok (sorted.map (·.map .ofNat)) ∧
      sorted.Perm classes ∧ Ordered sorted := by
  have hranks : Sorting.Ranks (fun a b : List Value => Value.lt (a.headD .null) (b.headD .null))
      (fun c => OrderedClass.ints.code (c.headD .null))
      (fun c => OrderedClass.ints.carrier (c.headD .null)) := fun _ _ => OrderedClass.ints.lt_eq
  have hints : ∀ c ∈ classes,
      OrderedClass.ints.carrier ((c.map Value.ofNat).headD .null) := by
    intro c hc
    cases c with
    | nil => exact absurd rfl (hne _ hc)
    | cons i c => exact ⟨i, rfl⟩
  obtain ⟨sorted, hsorted, hp, hle⟩ := Sorting.sort_map hranks hints
  refine ⟨sorted, hsorted, hp, fun c hc => hlt c (hp.mem_iff.1 hc), ?_⟩
  have hdis' : sorted.Pairwise List.Disjoint := hp.symm.pairwise hdis List.Disjoint.symm
  refine (hle.and hdis').imp_of_mem fun {c d} hc hd h => ?_
  match c, d, hp.mem_iff.1 hc, hp.mem_iff.1 hd with
  | [], _, hc, _ => exact absurd rfl (hne _ hc)
  | _, [], _, hd => exact absurd rfl (hne _ hd)
  | i :: c, j :: d, hc, hd =>
    have hij : i < j :=
      Nat.lt_of_le_of_ne (Int.ofNat_le.1 h.1) fun e => h.2 List.mem_cons_self (e ▸ List.mem_cons_self)
    refine ⟨i, List.mem_cons_self, List.forall_mem_cons.2 ⟨hij, fun k hk => ?_⟩⟩
    exact Nat.lt_trans hij (List.rel_of_pairwise_cons (hlt _ hd) hk)

/-- The search begins with the given nodes or, in the order of the graph, with the same ones. -/
theorem exists_starts {among : List Nat} (near : Nat → List (Nat × α))
    (hsub : ∀ i ∈ among, i ∈ nodes) :
    ∃ starts : List Nat,
      (if 2 * (among.map Value.ofNat).length < (ordinal nodes near).size then among.map Value.ofNat
        else ((ordinal nodes near).nodes.map Prod.fst).filter fun x =>
          (among.map Value.ofNat).any (Value.same · x)) = starts.map Value.ofNat ∧
      ∀ i, i ∈ starts ↔ i ∈ among := by
  split
  · exact ⟨among, rfl, fun _ => Iff.rfl⟩
  · refine ⟨nodes.filter (· ∈ among), ?_, fun i => ?_⟩
    · have hkeys : (ordinal nodes near).nodes.map Prod.fst = nodes.map Value.ofNat := List.map_map
      rw [hkeys, List.filter_map]
      refine congrArg _ (List.filter_congr fun i _ => ?_)
      rw [Function.comp_apply, Value.any_same_ofNat]
    · rw [List.mem_filter, decide_eq_true_iff]
      exact ⟨And.right, fun hi => ⟨hsub i hi, hi⟩⟩

/-- The connected components of some nodes, in order. -/
theorem connectedSubsets_spec {among : List Nat} {arcs : List (Nat × Nat × α)}
    {connects : α → Checked Bool} (D : Draws arcs near) (hn : nodes.Nodup)
    (hsub : ∀ i ∈ among, i ∈ nodes) (hs : ∀ x y, linked x y = linked y x)
    (hconnects : ∀ i j label, (i, j, label) ∈ arcs → connects label = .ok (linked i j))
    (hlinked : ∀ i ∈ nodes, ∀ j ∈ nodes, linked i j = true → ∃ label, (i, j, label) ∈ arcs) :
    ∃ classes : List (List Nat), (ordinal nodes near).connectedSubsets (among.map .ofNat) connects =
        .ok (classes.map (·.map .ofNat)) ∧
      Divides linked (nodes.filter (· ∈ among)) classes ∧ Ordered classes := by
  have hmissing : (among.map Value.ofNat).filter (!(ordinal nodes near).contains ·) = [] := by
    rw [List.filter_eq_nil_iff]
    intro v hv
    obtain ⟨i, hi, rfl⟩ := List.mem_map.1 hv
    rw [contains_ordinal, decide_eq_true (hsub i hi)]
    exact Bool.false_ne_true
  obtain ⟨distinct, hdistinct, hnd, hmem⟩ := Value.distinct_ofNat among
  have hsub' : ∀ i ∈ distinct, i ∈ nodes := fun i hi => hsub i ((hmem i).1 hi)
  have hp : distinct.Perm (nodes.filter (· ∈ among)) := by
    refine (List.perm_ext_iff_of_nodup hnd (hn.filter _)).2 fun i => ?_
    rw [List.mem_filter, decide_eq_true_iff, hmem]
    exact ⟨fun hi => ⟨hsub i hi, hi⟩, And.right⟩
  obtain ⟨starts, hstarts, hcover⟩ := exists_starts near hsub'
  have hfollows := follows_ordinal D hsub' hconnects hlinked
  have hnone : Found linked distinct [] := ⟨List.nodup_nil, nofun⟩
  obtain ⟨found, hfound, F, hall⟩ :=
    components_spec hs hfollows hnd (fun i hi => (hcover i).1 hi) hnone
  have hdivides := F.divides hnd fun i hi => hall i (.inr ((hcover i).2 hi))
  obtain ⟨sorted, hsorted, hps, hlt⟩ := sort_classes fun c hc => hdivides.nodup hnd hc
  have hdivides' := hdivides.congr hps
  obtain ⟨classes, hclasses, hpc, hordered⟩ := sort_leading hdivides'.nonempty hlt
    (List.nodup_flatten.1 (hdivides'.perm.nodup_iff.2 hnd)).2
  have hdivides'' := hdivides'.of_perm hs hpc.symm
  refine ⟨classes, ?_, { hdivides'' with perm := hdivides''.perm.trans hp }, hordered⟩
  unfold connectedSubsets
  simp only [hmissing, hdistinct, hstarts, List.isEmpty_nil, Bool.not_true, Bool.false_eq_true,
    if_false]
  rw [List.map_nil] at hfound
  rw [List.length_map, hfound, Checked.bind_ok, hsorted, Checked.bind_ok, hclasses]

end LabelledGraph
end JoinOrder
