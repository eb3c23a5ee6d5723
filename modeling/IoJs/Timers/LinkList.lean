import IoJs.Library.Rings

/-!
# Linked lists of timers

`_idleNext` and `_idlePrev` link lists and items to rings. The most idle item of a list is its
`_idlePrev`, and a new item becomes its `_idleNext`, so the items from the peek end on are those of
the walk along `_idlePrev`.
-/

namespace IoJs.Timers

open IoJs.Library Option
open List hiding after
open Function (update_eq_self_iff update_of_ne update_self)
open Function (update)

/-- What has a ring: the list of a `Timer`, or `unrefList` -/
inductive Head where
  | list (id : Nat)
  | unref
  deriving DecidableEq

/-- What can be linked -/
inductive Node where
  | head (head : Head)
  | item (id : Nat)
  deriving DecidableEq

/-- The links of all objects -/
structure Links where
  /-- `_idleNext` -/
  next : Node → Option Node
  /-- `_idlePrev` -/
  prev : Node → Option Node

namespace Links

/-- No object has been linked. -/
def none : Links := ⟨fun _ => Option.none, fun _ => Option.none⟩

def init (list : Node) (l : Links) : Links :=
  ⟨update l.next list (some list), update l.prev list (some list)⟩

def peek (list : Node) (l : Links) : Option Node :=
  if l.prev list = some list then Option.none else l.prev list

/-- `item._idleNext._idlePrev = item._idlePrev;` -/
def joinNext (item : Node) (l : Links) : Links :=
  match l.next item with
  | Option.none => l
  | some after => { l with prev := update l.prev after (l.prev item) }

/-- `item._idlePrev._idleNext = item._idleNext;` -/
def joinPrev (item : Node) (l : Links) : Links :=
  match l.prev item with
  | Option.none => l
  | some before => { l with next := update l.next before (l.next item) }

def remove (item : Node) (l : Links) : Links :=
  let l := (l.joinNext item).joinPrev item
  ⟨update l.next item Option.none, update l.prev item Option.none⟩

def append (list item : Node) (l : Links) : Links :=
  let l := l.remove item
  let l := { l with next := update l.next item (l.next list) }
  let l := match l.next list with
    | Option.none => l
    | some after => { l with prev := update l.prev after (some item) }
  let l := { l with prev := update l.prev item (some list) }
  { l with next := update l.next list (some item) }

def isEmpty (list : Node) (l : Links) : Bool := l.next list = some list

/-- The items on the way along `_idlePrev`, as far as `n` of them -/
def items (l : Links) : Nat → Node → List Nat
  | 0, _ => []
  | n + 1, x =>
    match l.prev x with
    | some (.item i) => i :: l.items n (.item i)
    | _ => []

end Links

/-! ## What the lists hold -/

variable {l : Links} {made : Head → Prop} {contents : Head → List Nat} {h : Head} {i : Nat}
variable {x a : Node}

/-- From the peek end on, the items of the lists that have been made are `contents`. -/
structure Holds (l : Links) (made : Head → Prop) (contents : Head → List Nat) : Prop where
  mutual_ : Mutual l.next l.prev
  walk : ∀ {h}, made h → Walk l.prev (.head h) ((contents h).map .item) (.head h)
  nodup : ∀ h, (contents h).Nodup
  alone : ∀ {h h' i}, i ∈ contents h → i ∈ contents h' → h = h'
  unmade : ∀ {h}, ¬made h → contents h = [] ∧ l.next (.head h) = none ∧ l.prev (.head h) = none
  loose : ∀ {i}, (∀ h, i ∉ contents h) → l.next (.item i) = none ∧ l.prev (.item i) = none ∨
    l.next (.item i) = some (.item i) ∧ l.prev (.item i) = some (.item i)

/-- The contents without an item -/
def without (i : Nat) (contents : Head → List Nat) (h : Head) : List Nat := (contents h).erase i

namespace Holds

theorem nodup_ring (holds : Holds l made contents) (h : Head) :
    (Node.head h :: (contents h).map Node.item).Nodup := by
  refine nodup_cons.mpr ⟨fun mem => ?_, ?_⟩
  · grind
  · exact (holds.nodup h).map fun i j same => Node.item.inj same

theorem made_of_mem (holds : Holds l made contents) (mem : i ∈ contents h) : made h := by
  by_contra unmade
  simp [(holds.unmade unmade).1] at mem

theorem initial : Holds .none (fun _ => False) fun _ => [] where
  mutual_ := by
    intro x y
    constructor <;> rintro ⟨⟩
  walk := False.elim
  nodup := fun _ => nodup_nil
  alone := by rintro h h' i ⟨⟩
  unmade := fun _ => ⟨rfl, rfl, rfl⟩
  loose := fun _ => .inl ⟨rfl, rfl⟩

theorem peek_eq (holds : Holds l made contents) (h : Head) :
    l.peek (.head h) = (contents h).head?.map .item := by
  rw [Links.peek]
  by_cases here : made h
  case neg =>
    obtain ⟨empty, -, prev_none⟩ := holds.unmade here
    simp [prev_none, empty]
  have walk := holds.walk here
  cases first : contents h with
  | nil =>
    rw [first] at walk
    exact if_pos walk
  | cons =>
    rw [first] at walk
    simp [walk.1]

theorem isEmpty_iff (holds : Holds l made contents) (here : made h) :
    l.isEmpty (.head h) = true ↔ contents h = [] := by
  have walk := holds.walk here
  rw [Links.isEmpty, decide_eq_true_iff, ← holds.mutual_ _ _]
  cases first : contents h with
  | nil =>
    rw [first] at walk
    exact iff_of_true walk rfl
  | cons =>
    rw [first] at walk
    refine iff_of_false (fun self => ?_) (cons_ne_nil _ _)
    simp [walk.1] at self

variable {n : Nat}

theorem items_of_walk {x : Node} {items : List Nat}
    (walk : Walk l.prev x (items.map .item) (.head h)) (enough : items.length ≤ n) :
    l.items n x = items := by
  induction items generalizing x n with
  | nil =>
    cases n with
    | zero => rfl
    | succ n =>
      have last : l.prev x = some (.head h) := walk
      rw [Links.items, last]
  | cons i items ih =>
    cases n with
    | zero => exact absurd enough (Nat.not_succ_le_zero _)
    | succ n =>
      have first : l.prev x = some (.item i) := walk.1
      rw [Links.items, first]
      exact congrArg (i :: ·) (ih walk.2 (Nat.le_of_succ_le_succ enough))

theorem items_eq (holds : Holds l made contents) (enough : (contents h).length ≤ n) :
    l.items n (.head h) = contents h := by
  by_cases here : made h
  · exact items_of_walk (holds.walk here) enough
  obtain ⟨empty, -, prev_none⟩ := holds.unmade here
  rw [empty]
  cases n with
  | zero => rfl
  | succ n => rw [Links.items, prev_none]

theorem linked (holds : Holds l made contents) (mem : i ∈ contents h) :
    ∃ a b, l.next (.item i) = some a ∧ l.prev (.item i) = some b ∧ a ≠ .item i := by
  have walk := holds.walk (holds.made_of_mem mem)
  have nodup := holds.nodup_ring h
  obtain ⟨first, rest, split⟩ := append_of_mem mem
  obtain ⟨a, -, before⟩ := walk.exists_prev (List.mem_map_of_mem mem)
  have before_b : ∃ b, l.prev (.item i) = some b ∧ b ≠ .item i := by
    rw [split, map_append, map_cons] at walk nodup
    obtain ⟨-, after⟩ := Walk.append.mp walk
    obtain ⟨once, -⟩ := nodup_cons.mp (nodup_append'.mp
      (nodup_cons.mp nodup).2).2.1
    cases rest with
    | nil => exact ⟨_, after, by rintro ⟨⟩⟩
    | cons =>
      refine ⟨_, after.1, fun same => once ?_⟩
      simp [← same]
  obtain ⟨b, before_i, other⟩ := before_b
  refine ⟨a, b, (holds.mutual_ _ _).mp before, before_i, ?_⟩
  rintro rfl
  exact other (some.inj (before_i.symm.trans before))

end Holds

/-! ## Removing an item -/

theorem remove_linked {b : Node} (after : l.next x = some a) (before : l.prev x = some b)
    (other : a ≠ x) : l.remove x = ⟨update (update l.next b (some a)) x none,
        update (update l.prev a (some b)) x none⟩ := by
  have joined : l.joinNext x = { l with prev := update l.prev a (some b) } := by
    rw [Links.joinNext, after, before]
  have still : (l.joinNext x).prev x = some b := by
    rw [joined]
    exact (update_of_ne other.symm _ _).trans before
  rw [Links.remove, Links.joinPrev, still, joined]
  simp only [after]

theorem remove_loose (loose : l.next x = none ∧ l.prev x = none ∨
    l.next x = some x ∧ l.prev x = some x) :
    l.remove x = ⟨update l.next x none, update l.prev x none⟩ := by
  rcases loose with ⟨after, before⟩ | ⟨after, before⟩
  · rw [Links.remove, Links.joinNext, after, Links.joinPrev, before]
  have self : update l.prev x (some x) = l.prev := update_eq_self_iff.mpr before.symm
  have self' : update l.next x (some x) = l.next := update_eq_self_iff.mpr after.symm
  have same : l.joinNext x = l := by simp [Links.joinNext, after, before, self]
  have same' : l.joinPrev x = l := by simp [Links.joinPrev, before, after, self']
  rw [Links.remove, same, same']

theorem without_of_not_mem (absent : ∀ h, i ∉ contents h) : without i contents = contents := by
  funext h
  exact erase_of_not_mem (absent h)

theorem mem_without {j : Nat} (nodup : (contents h).Nodup) :
    j ∈ without i contents h ↔ j ≠ i ∧ j ∈ contents h := nodup.mem_erase_iff

namespace Holds

section

variable (holds : Holds l made contents)
include holds

theorem remove_of_mem (mem : i ∈ contents h) :
    Holds (l.remove (.item i)) made (without i contents) := by
  obtain ⟨a, b, after, before, other⟩ := holds.linked mem
  have before_a : l.prev a = some (.item i) := (holds.mutual_ _ _).mpr after
  have after_b : l.next b = some (.item i) := (holds.mutual_ _ _).mp before
  rw [remove_linked after before other]
  have others : ∀ {u}, u ≠ .item i → l.prev u ≠ some (.item i) →
      update (update l.prev a (some b)) (.item i) none u = l.prev u := by
    intro u different away
    rw [update_of_ne different, update_of_ne]
    rintro rfl
    exact away before_a
  have joined : ∀ {u}, u ≠ .item i → l.prev u = some (.item i) →
      update (update l.prev a (some b)) (.item i) none u = l.prev (.item i) := by
    intro u different here
    have same : u = a := some.inj (((holds.mutual_ _ _).mp here).symm.trans after)
    rw [update_of_ne different, same, update_self, before]
  refine ⟨holds.mutual_.unlink after before other, ?_, ?_, ?_, ?_, ?_⟩
  · intro h' here
    have walk := holds.walk here
    by_cases same : i ∈ contents h'
    · obtain ⟨first, rest, split⟩ := append_of_mem same
      have nodup := holds.nodup_ring h'
      have erased : without i contents h' = first ++ rest := by
        rw [without, split, erase_append_right _ ?_, erase_cons_head]
        have distinct := holds.nodup h'
        rw [split, nodup_append'] at distinct
        exact fun mem => distinct.2.2 mem mem_cons_self
      rw [split, map_append, map_cons] at walk nodup
      simpa [erased] using walk.unlink nodup (by rintro ⟨⟩) others joined
    rw [without, erase_of_not_mem same]
    have absent : Node.item i ∉ (contents h').map Node.item := by
      rw [List.mem_map]
      rintro ⟨j, j_mem, eq⟩
      cases eq
      exact same j_mem
    refine walk.congr fun u u_mem => others ?_ fun passes => ?_
    · rintro rfl
      rcases mem_cons.mp u_mem with eq | u_mem
      · cases eq
      · exact absent u_mem
    rcases walk.mem_of_prev u_mem passes with passed | eq
    · exact absent passed
    · cases eq
  · exact fun h' => (holds.nodup h').erase i
  · intro h' h'' j j_mem j_mem'
    exact holds.alone (mem_of_mem_erase j_mem) (mem_of_mem_erase j_mem')
  · intro h' unmade
    obtain ⟨empty, next_none, prev_none⟩ := holds.unmade unmade
    have plain : Node.head h' ≠ .item i := by rintro ⟨⟩
    refine ⟨by rw [without, empty]; rfl, ?_, ?_⟩
    · have apart : Node.head h' ≠ b := by grind
      simp only [update_of_ne plain, update_of_ne apart, next_none]
    have apart : Node.head h' ≠ a := by
      rintro rfl
      simp [prev_none] at before_a
    simp only [update_of_ne plain, update_of_ne apart, prev_none]
  intro j absent
  by_cases same : j = i
  · subst same
    exact .inl ⟨update_self .., update_self ..⟩
  have different : Node.item j ≠ .item i := fun eq => same (Node.item.inj eq)
  have loose := holds.loose fun h' j_mem =>
    absent h' ((mem_without (holds.nodup h')).mpr ⟨same, j_mem⟩)
  have apart : Node.item j ≠ b := by grind
  have apart' : Node.item j ≠ a := by grind
  simp only [update_of_ne different, update_of_ne apart, update_of_ne apart']
  exact loose

theorem change_loose (absent : ∀ h, i ∉ contents h)
    {link : Option Node} (value : link = none ∨ link = some (.item i))
    (mutual_ : Mutual (update l.next (.item i) link)
      (update l.prev (.item i) link)) :
    Holds ⟨update l.next (.item i) link, update l.prev (.item i) link⟩ made
      contents where
  mutual_ := mutual_
  walk := by
    intro h here
    refine (holds.walk here).congr fun u mem => update_of_ne ?_ _ _
    rintro rfl
    rcases mem_cons.mp mem with eq | mem
    · cases eq
    obtain ⟨j, j_mem, eq⟩ := List.mem_map.mp mem
    cases eq
    exact absent h j_mem
  nodup := holds.nodup
  alone := holds.alone
  unmade := by
    intro h unmade
    obtain ⟨empty, next_none, prev_none⟩ := holds.unmade unmade
    simpa using ⟨empty, next_none, prev_none⟩
  loose := by
    intro j j_absent
    by_cases same : j = i
    · grind
    have different : Node.item j ≠ .item i := fun eq => same (Node.item.inj eq)
    simp only [update_of_ne different]
    exact holds.loose j_absent

theorem remove (i : Nat) : Holds (l.remove (.item i)) made (without i contents) := by
  by_cases listed : ∃ h, i ∈ contents h
  · obtain ⟨h, mem⟩ := listed
    exact holds.remove_of_mem mem
  rw [not_exists] at listed
  have loose := holds.loose listed
  rw [remove_loose loose, without_of_not_mem listed]
  exact holds.change_loose listed (.inl rfl)
    (holds.mutual_.dissolve (loose.imp And.left And.left) (loose.imp And.right And.right))

theorem init_item (absent : ∀ h, i ∉ contents h) : Holds (l.init (.item i)) made contents := by
  have loose := holds.loose absent
  exact holds.change_loose absent (.inr rfl)
    (holds.mutual_.init (loose.imp And.left And.left) (loose.imp And.right And.right))

end

end Holds

theorem next_remove : (l.remove x).next x = none := update_self ..

theorem prev_remove : (l.remove x).prev x = none := update_self ..

/-! ## Adding an item -/

theorem append_eq {y : Node} (after : (l.remove x).next y = some a) (other : y ≠ x) : l.append y x =
    ⟨update (update (l.remove x).next x (some a)) y (some x),
      update (update (l.remove x).prev a (some x)) x (some y)⟩ := by
  have still : update (l.remove x).next x (some a) y = some a := by
    rw [update_of_ne other, after]
  rw [Links.append]
  simp only [after, still]

namespace Holds

variable {y a u : Node}

theorem prev_insert_of_ne (holds : Holds l made contents)
    (after : l.next y = some a) (different : u ≠ .item i) (passes : l.prev u ≠ some y) :
    update (update l.prev a (some (.item i))) (.item i) (some y) u =
      l.prev u := by
  rw [update_of_ne different, update_of_ne]
  rintro rfl
  exact passes ((holds.mutual_ _ _).mpr after)

theorem prev_insert_of_eq (holds : Holds l made contents) (prev_none : l.prev (.item i) = none)
    (after : l.next y = some a) (here : l.prev u = some y) :
    update (update l.prev a (some (.item i))) (.item i) (some y) u =
      some (.item i) := by
  have same : u = a := some.inj (((holds.mutual_ _ _).mp here).symm.trans after)
  have different : u ≠ .item i := by grind
  rw [update_of_ne different, same, update_self]

variable {items : List Nat}

theorem insert (holds : Holds l made contents) (here : made h) (absent : ∀ h, i ∉ contents h)
    (next_none : l.next (.item i) = none) (prev_none : l.prev (.item i) = none)
    (after : l.next y = some a) (perm : items.Perm (i :: contents h))
    (ring : y ∈ Node.head h :: (contents h).map Node.item)
    (walk : Walk (update (update l.prev a (some (.item i))) (.item i) (some y))
      (.head h) (items.map .item) (.head h)) :
    Holds ⟨update (update l.next (.item i) (some a)) y (some (.item i)),
      update (update l.prev a (some (.item i))) (.item i) (some y)⟩ made
        (update contents h items) := by
  have before_a : l.prev a = some y := (holds.mutual_ _ _).mpr after
  have mem_items : ∀ {j}, j ∈ items ↔ j = i ∨ j ∈ contents h := by
    intro j
    rw [perm.mem_iff, mem_cons]
  have apart : ∀ {h'}, h' ≠ h → y ≠ .head h' ∧ y ∉ (contents h').map Node.item := by
    intro h' other
    rcases mem_cons.mp ring with rfl | mem
    · refine ⟨fun same => other (Node.head.inj same).symm, fun mem => ?_⟩
      obtain ⟨j, -, eq⟩ := List.mem_map.mp mem
      cases eq
    obtain ⟨j, j_mem, rfl⟩ := List.mem_map.mp mem
    refine ⟨by rintro ⟨⟩, fun mem' => ?_⟩
    obtain ⟨j', j_mem', eq⟩ := List.mem_map.mp mem'
    cases eq
    exact other (holds.alone j_mem' j_mem)
  refine ⟨holds.mutual_.link after next_none prev_none, ?_, ?_, ?_, ?_, ?_⟩
  · intro h' here'
    by_cases same : h' = h
    · subst same
      rwa [update_self]
    obtain ⟨end_, away⟩ := apart same
    rw [update_of_ne same]
    refine (holds.walk here').link_of_not_mem (i := .item i) (fun mem => ?_) away end_ ?_
    · rcases mem_cons.mp mem with eq | mem
      · cases eq
      obtain ⟨j, j_mem, eq⟩ := List.mem_map.mp mem
      cases eq
      exact absent h' j_mem
    intro u different passes
    exact holds.prev_insert_of_ne after different passes
  · intro h'
    by_cases same : h' = h
    · subst same
      simpa [perm.nodup_iff] using nodup_cons.mpr ⟨absent h', holds.nodup h'⟩
    rw [update_of_ne same]
    exact holds.nodup h'
  · have at_h : ∀ {h' j}, j ∈ update contents h items h' →
        j = i ∧ h' = h ∨ j ∈ contents h' := by
      intro h' j mem
      by_cases same : h' = h
      · subst same
        rw [update_self, mem_items] at mem
        exact mem.imp_left fun eq => ⟨eq, rfl⟩
      · grind
    intro h' h'' j mem mem'
    rcases at_h mem with ⟨new, rfl⟩ | old <;> rcases at_h mem' with ⟨new', rfl⟩ | old'
    · rfl
    · exact absurd old' (new ▸ absent h'')
    · exact absurd old (new' ▸ absent h')
    · exact holds.alone old old'
  · intro h' unmade
    have other : h' ≠ h := by
      rintro rfl
      exact unmade here
    obtain ⟨empty, next_none', prev_none'⟩ := holds.unmade unmade
    have plain : Node.head h' ≠ .item i := by rintro ⟨⟩
    have apart_a : Node.head h' ≠ a := by
      rintro rfl
      simp [prev_none'] at before_a
    simp only [update_of_ne other, update_of_ne plain,
      update_of_ne (apart other).1.symm, update_of_ne apart_a]
    exact ⟨empty, next_none', prev_none'⟩
  intro j away
  have gone : ∀ h', j ∉ contents h' := by
    intro h' mem
    by_cases same : h' = h
    · subst same
      refine away h' ?_
      rw [update_self]
      exact mem_items.mpr (.inr mem)
    refine away h' ?_
    rwa [update_of_ne same]
  have different : Node.item j ≠ .item i := by
    rintro ⟨⟩
    refine away h ?_
    simpa using mem_items.mpr (.inl rfl)
  have apart_y : Node.item j ≠ y := by
    rintro rfl
    rcases mem_cons.mp ring with eq | mem
    · cases eq
    obtain ⟨j', j_mem, eq⟩ := List.mem_map.mp mem
    cases eq
    exact gone h j_mem
  have loose := holds.loose gone
  have apart_a : Node.item j ≠ a := by
    rintro rfl
    rcases loose with ⟨-, eq⟩ | ⟨-, eq⟩
    · simp [eq] at before_a
    rw [eq] at before_a
    exact apart_y (some.inj before_a)
  simp only [update_of_ne different, update_of_ne apart_y, update_of_ne apart_a]
  exact loose

theorem not_mem_without (holds : Holds l made contents) (i : Nat) (h : Head) :
    i ∉ without i contents h := (holds.nodup h).not_mem_erase

theorem item_not_mem_ring (absent : i ∉ items) :
    Node.item i ∉ Node.head h :: items.map Node.item := by
  grind

theorem head_not_mem_items : Node.head h ∉ items.map Node.item := by simp

section

variable (holds : Holds l made contents)
include holds

theorem append_head (here : made h) (i : Nat) : Holds (l.append (.head h) (.item i)) made
    (update (without i contents) h (without i contents h ++ [i])) := by
  have removed := holds.remove i
  have walk := removed.walk here
  have absent := holds.not_mem_without i
  obtain ⟨a, -, before⟩ := walk.exists_last
  have after := (removed.mutual_ _ _).mp before
  rw [append_eq after (by rintro ⟨⟩)]
  refine removed.insert here absent next_remove prev_remove after
    (perm_append_singleton _ _) mem_cons_self ?_
  rw [map_append]
  exact walk.link (item_not_mem_ring (absent h)) head_not_mem_items
    (removed.prev_insert_of_ne after) (removed.prev_insert_of_eq prev_remove after)
    (update_self ..)

theorem append_item {j : Nat} (other : i ≠ j)
    {first rest : List Nat} (split : without i contents h = first ++ j :: rest) :
    Holds (l.append (.item j) (.item i)) made
      (update (without i contents) h (first ++ i :: j :: rest)) := by
  have removed := holds.remove i
  have mem : j ∈ without i contents h := by grind
  have here := removed.made_of_mem mem
  have absent := holds.not_mem_without i
  have walk := removed.walk here
  have nodup := removed.nodup h
  have away := absent h
  rw [split, nodup_append'] at nodup
  rw [split, mem_append, mem_cons, not_or, not_or] at away
  rw [split, map_append, map_cons] at walk
  obtain ⟨toward, beyond⟩ := Walk.append.mp walk
  obtain ⟨a, -, before⟩ := toward.exists_last
  have after := (removed.mutual_ _ _).mp before
  have once : Node.item j ∉ first.map Node.item := by
    rw [List.mem_map]
    rintro ⟨k, k_mem, eq⟩
    cases eq
    exact nodup.2.2 k_mem mem_cons_self
  have once' : Node.item j ∉ rest.map Node.item := by
    rw [List.mem_map]
    rintro ⟨k, k_mem, eq⟩
    cases eq
    exact (nodup_cons.mp nodup.2.1).1 k_mem
  rw [append_eq after fun eq => other (Node.item.inj eq).symm]
  refine removed.insert here absent next_remove prev_remove after ?_
    (mem_cons_of_mem _ (List.mem_map_of_mem mem)) ?_
  · simp [split]
  rw [map_append, map_cons, map_cons, ← singleton_append, ← append_assoc]
  refine Walk.append.mpr ⟨?_, ?_⟩
  · exact toward.link (item_not_mem_ring away.1) once (removed.prev_insert_of_ne after)
      (removed.prev_insert_of_eq prev_remove after) (update_self ..)
  refine beyond.link_of_not_mem (i := .item i) ?_ once' (by rintro ⟨⟩)
    (removed.prev_insert_of_ne after)
  rw [mem_cons, List.mem_map, not_or]
  refine ⟨fun eq => away.2.1 (Node.item.inj eq), ?_⟩
  rintro ⟨k, k_mem, eq⟩
  cases eq
  exact away.2.2 k_mem

theorem init_head (new : ¬made h) :
    Holds (l.init (.head h)) (fun h' => h' = h ∨ made h') contents := by
  obtain ⟨empty, next_none, prev_none⟩ := holds.unmade new
  refine ⟨holds.mutual_.init (.inl next_none) (.inl prev_none), ?_, holds.nodup, holds.alone,
    ?_, ?_⟩
  · intro h' here
    by_cases same : h' = h
    · subst same
      rw [empty]
      exact update_self ..
    refine (holds.walk (here.resolve_left same)).congr fun u mem => update_of_ne ?_ _ _
    rintro rfl
    rcases mem_cons.mp mem with eq | mem
    · exact same (Node.head.inj eq).symm
    · exact head_not_mem_items mem
  · intro h' unmade
    rw [not_or] at unmade
    have other : Node.head h' ≠ .head h := fun eq => unmade.1 (Node.head.inj eq)
    simp only [Links.init, update_of_ne other]
    exact holds.unmade unmade.2
  intro j away
  exact holds.loose away

end

end Holds

/-! ## Runs -/

/-- `shift`, which takes the head out of an empty list -/
def shift (list : Node) (l : Links) : Option Node × Links :=
  match l.prev list with
  | Option.none => (Option.none, l)
  | some first => (some first, l.remove first)

/-- A call; `peek` and `isEmpty` leave the links as they are. -/
inductive ListCall where
  | init (node : Node)
  | append (list : Node) (item : Nat)
  | remove (item : Nat)
  | shift (head : Head)

/-- What a call does to the links -/
def Links.step (l : Links) : ListCall → Links
  | .init node => l.init node
  | .append list item => l.append list (.item item)
  | .remove item => l.remove (.item item)
  | .shift head => (shift (.head head) l).2

/-- The lists, as sequences from the peek end on -/
structure Lists where
  /-- the heads for which `init` has been called -/
  made : Head → Prop
  contents : Head → List Nat

namespace Lists

/-- No list has been made. -/
def none : Lists := ⟨fun _ => False, fun _ => []⟩

/-- `append` to a head puts an item at the other end, and to an item directly before it. -/
def append (list : Node) (i : Nat) (s : Lists) : Lists :=
  match list with
  | .head h =>
    { s with
      contents := update (without i s.contents) h (without i s.contents h ++ [i]) }
  | .item j =>
    { s with
      contents := fun h => (without i s.contents h).flatMap fun k => if k = j then [i, k] else [k] }

/-- What a call is for -/
def step (s : Lists) : ListCall → Lists
  | .init (.head h) => { s with made := fun h' => h' = h ∨ s.made h' }
  | .init (.item _) => s
  | .append list i => s.append list i
  | .remove i => { s with contents := without i s.contents }
  | .shift h => { s with contents := update s.contents h (s.contents h).tail }

/-- Only what is not in use is initialized, nothing is taken from an empty list, and an item is put
into a list that there is. -/
def Fine (s : Lists) : ListCall → Prop
  | .init (.head h) => s.contents h = []
  | .init (.item i) => ∀ h, i ∉ s.contents h
  | .append (.head h) _ => s.made h
  | .append (.item j) i => i ≠ j ∧ ∃ h, j ∈ s.contents h
  | .remove _ => True
  | .shift h => s.contents h ≠ []

/-- This for each call of a run -/
def AllFine : Lists → List ListCall → Prop
  | _, [] => True
  | s, call :: calls => s.Fine call ∧ (s.step call).AllFine calls

end Lists

/-- The links represent the lists. -/
def Lists.Represented (s : Lists) (l : Links) : Prop := Holds l s.made s.contents

variable {l : Links} {s : Lists} {h : Head} {i j : Nat}

theorem flatMap_before {items first rest : List Nat} (split : items = first ++ j :: rest)
    (nodup : items.Nodup) :
    (items.flatMap fun k => if k = j then [i, k] else [k]) = first ++ i :: j :: rest := by
  have other : ∀ part : List Nat, j ∉ part →
      (part.flatMap fun k => if k = j then [i, k] else [k]) = part := by
    intro part away
    induction part with
    | nil => rfl
    | cons k part ih =>
      rw [mem_cons, not_or] at away
      rw [flatMap_cons, if_neg (Ne.symm away.1), ih away.2]
      rfl
  subst split
  rw [nodup_append'] at nodup
  have before : j ∉ first := fun mem => nodup.2.2 mem mem_cons_self
  have behind : j ∉ rest := (nodup_cons.mp nodup.2.1).1
  rw [flatMap_append, flatMap_cons, if_pos rfl, other first before, other rest behind]
  rfl

theorem Lists.Represented.append_item (holds : s.Represented l) (other : i ≠ j)
    (mem : j ∈ s.contents h) :
    (s.append (.item j) i).Represented (l.append (.item j) (.item i)) := by
  have removed := Holds.remove holds i
  have kept : j ∈ without i s.contents h := (mem_erase_of_ne (Ne.symm other)).mpr mem
  obtain ⟨first, rest, split⟩ := append_of_mem kept
  have appended := Holds.append_item holds other split
  have same : update (without i s.contents) h (first ++ i :: j :: rest) =
      (s.append (.item j) i).contents := by
    funext h'
    by_cases here : h' = h
    · subst here
      rw [update_self]
      exact (flatMap_before split (removed.nodup h')).symm
    · have away : j ∉ without i s.contents h' := fun mem' => here (removed.alone mem' kept)
      rw [update_of_ne here]
      symm
      refine (flatMap_congr fun k k_mem => if_neg ?_).trans (List.flatMap_singleton' _)
      rintro rfl
      exact away k_mem
  rwa [same] at appended

theorem Lists.Represented.init_again (holds : s.Represented l) (here : s.made h)
    (empty : s.contents h = []) : l.init (.head h) = l := by
  have walk := Holds.walk holds here
  rw [empty] at walk
  have before : l.prev (.head h) = some (.head h) := walk
  have after : l.next (.head h) = some (.head h) := (Holds.mutual_ holds _ _).mp before
  rw [Links.init, ← after, Function.update_eq_self, after, ← before, Function.update_eq_self]

theorem Lists.Represented.shift_eq (holds : s.Represented l) {rest : List Nat}
    (first : s.contents h = i :: rest) :
    shift (.head h) l = (some (.item i), l.remove (.item i)) ∧
      without i s.contents = update s.contents h rest := by
  have mem : i ∈ s.contents h := first ▸ mem_cons_self
  have walk := Holds.walk holds (Holds.made_of_mem holds mem)
  rw [first] at walk
  refine ⟨?_, funext fun h' => ?_⟩
  · rw [shift, walk.1]
  · by_cases here : h' = h
    · subst here
      rw [without, update_self, first, erase_cons_head]
    · rw [without, update_of_ne here]
      exact erase_of_not_mem fun mem' => here (Holds.alone holds mem' mem)

/-- **One call** -/
theorem Lists.Represented.step (holds : s.Represented l) {call : ListCall} (fine : s.Fine call) :
    (s.step call).Represented (l.step call) := by
  cases call with
  | init node =>
    cases node with
    | head h =>
      by_cases here : s.made h
      · have same : (fun h' => h' = h ∨ s.made h') = s.made :=
          funext fun h' => propext (or_iff_right_of_imp fun same => same ▸ here)
        rw [Links.step, holds.init_again here fine, Lists.step, same]
        exact holds
      · exact Holds.init_head holds here
    | item i => exact Holds.init_item holds fine
  | append list i =>
    cases list with
    | head h => exact Holds.append_head holds fine i
    | item j =>
      obtain ⟨other, h, mem⟩ := fine
      exact holds.append_item other mem
  | remove i => exact Holds.remove holds i
  | shift h =>
    obtain ⟨i, rest, first⟩ := exists_cons_of_ne_nil fine
    obtain ⟨shifted, same⟩ := holds.shift_eq first
    have removed := Holds.remove holds i
    rw [Links.step, shifted, Lists.step, first, tail_cons, ← same]
    exact removed

theorem next_append (list : Node) : (l.append list (.item i)).next list = some (.item i) ∧
    (l.append list (.item i)).prev (.item i) = some list := by
  rw [Links.append]
  refine ⟨update_self .., ?_⟩
  simp

/-- A run on the items is one on the links, as long as each call is fine. -/
theorem Lists.Represented.run (holds : s.Represented l) {calls : List ListCall}
    (fine : s.AllFine calls) :
    (calls.foldl Lists.step s).Represented (calls.foldl Links.step l) := by
  induction calls generalizing s l with
  | nil => exact holds
  | cons call calls ih => exact ih (holds.step fine.1) fine.2

/-- **The lists are kept.**  In every run of calls that are fine, the links are those of the lists
that the calls make, item by item: `Holds` has the rings, and each item at most once. -/
theorem lists_kept (calls : List ListCall) (fine : Lists.none.AllFine calls) :
    let s := calls.foldl Lists.step .none
    let l := calls.foldl Links.step .none
    Holds l s.made s.contents ∧
      (∀ h, l.peek (.head h) = (s.contents h).head?.map .item) ∧
      (∀ h, s.contents h ≠ [] → (shift (.head h) l).1 = (s.contents h).head?.map .item) ∧
      (∀ h, s.made h → (l.isEmpty (.head h) = true ↔ s.contents h = [])) ∧
      ∀ list i, s.Fine (.append list i) → (l.append list (.item i)).next list = some (.item i) ∧
        (l.append list (.item i)).prev (.item i) = some list := by
  intro s l
  have begun : Lists.none.Represented .none := Holds.initial
  have holds : s.Represented l := begun.run fine
  refine ⟨holds, Holds.peek_eq holds, fun h some_ => ?_, fun h => Holds.isEmpty_iff holds,
    fun list i _ => next_append list⟩
  obtain ⟨i, rest, first⟩ := exists_cons_of_ne_nil some_
  rw [(holds.shift_eq first).1, first]
  rfl

/-- Two items, one of them before the other -/
theorem lists_kept_two :
    let calls :=
      [.init (.head .unref), .append (.head .unref) 1, .append (.item 1) 2, .shift .unref]
    let s := calls.foldl Lists.step .none
    let l := calls.foldl Links.step .none
    Holds l s.made s.contents ∧
      (∀ h, l.peek (.head h) = (s.contents h).head?.map .item) ∧
      (∀ h, s.contents h ≠ [] → (shift (.head h) l).1 = (s.contents h).head?.map .item) ∧
      (∀ h, s.made h → (l.isEmpty (.head h) = true ↔ s.contents h = [])) ∧
      ∀ list i, s.Fine (.append list i) → (l.append list (.item i)).next list = some (.item i) ∧
        (l.append list (.item i)).prev (.item i) = some list :=
  lists_kept _ ⟨rfl, .inl rfl, ⟨by decide, .unref, by decide⟩, cons_ne_nil 2 [1], trivial⟩

/-- `shift` takes the head out of an empty list. -/
theorem not_lists_kept : ¬∀ calls : List ListCall, Mutual (calls.foldl Links.step .none).next
    (calls.foldl Links.step .none).prev ∧ ∀ h, .init (.head h) ∈ calls →
      (calls.foldl Links.step .none).next (.head h) ≠ Option.none := by
  intro all
  exact (all [.init (.head .unref), .shift .unref]).2 .unref mem_cons_self (by decide)

end IoJs.Timers
