import IoJs.Tls.Regexpify

/-!
# A host that is accepted has a name of the certificate

A name matches a host label by label, with a wildcard in its left-most label only. Where every
wildcard of the names is followed by a character that means itself, a host without an error is
matched by one of the names. A dot after a wildcard means any character, and with it a host of
fewer labels is accepted.
-/

namespace IoJs.Tls

open IoJs.Stream IoJs.RegExp IoJs.Library.RegExp List Option

/-! ## Matching label by label -/

/-- The labels of a name -/
def labels (name : JSString) : List JSString := name.splitOn (unit '.')

/-- A name without the dot at its end -/
def dropDot (name : JSString) : JSString :=
  if name.getLast? = some (unit '.') then name.dropLast else name

/-- Equal up to case, character by character -/
abbrev SameLabel (table : CaseTable) : JSString → JSString → Prop := List.Forall₂ (Same table)

/-- The star of a label stands for characters of `[a-z0-9-_]`. -/
def WildcardLabel (table : CaseTable) (label host : JSString) : Prop :=
  ∃ before taken after, label = before ++ unit '*' :: after ∧ unit '*' ∉ before ++ after ∧
    (∀ c ∈ taken, c ∈ members wildcardClass) ∧ SameLabel table (before ++ taken ++ after) host

/-- A name matches a host: the left-most labels may differ by a wildcard. -/
def Matches (table : CaseTable) (name host : JSString) : Prop :=
  ∃ left rest left' rest', labels (dropDot name) = left :: rest ∧
    labels (dropDot host) = left' :: rest' ∧
      (SameLabel table left left' ∨ WildcardLabel table left left') ∧
        List.Forall₂ (SameLabel table) rest rest'

section Labels

variable {table : CaseTable} {name host before : JSString}

theorem same_dot {c : UInt16} : Same table (unit '.') c ↔ unit '.' = c :=
  CaseTable.canonicalize_eq_iff (by decide) (by decide)

theorem labels_cons (c : UInt16) (name : JSString) : labels (c :: name) =
    if c = unit '.' then [] :: labels name else (labels name).modifyHead (c :: ·) := by
  simp only [labels, splitOn_cons_eq_if_modifyHead, beq_iff_eq]

theorem labels_append (noDot : unit '.' ∉ before) :
    labels (before ++ name) = (labels name).modifyHead (before ++ ·) := by
  induction before with
  | nil =>
    rw [nil_append]
    cases labels name with
    | nil => rfl
    | cons => rfl
  | cons c before ih =>
    rw [mem_cons, not_or] at noDot
    rw [cons_append, labels_cons, if_neg (Ne.symm noDot.1), ih noDot.2, modifyHead_modifyHead]
    rfl

theorem exists_labels (name : JSString) :
    ∃ rest, labels name = name.takeWhile (· ≠ unit '.') :: rest := by
  induction name with
  | nil => exact ⟨[], rfl⟩
  | cons c name ih =>
    obtain ⟨rest, eq⟩ := ih
    rw [labels_cons]
    by_cases dot : c = unit '.'
    · exact ⟨labels name, by rw [if_pos dot, takeWhile_cons_of_neg (by simp [dot])]⟩
    · simp [dot, eq]

theorem labels_same (same : SameLabel table name host) :
    List.Forall₂ (SameLabel table) (labels name) (labels host) := by
  induction same with
  | nil => exact .cons .nil .nil
  | @cons c d name host here _ ih =>
    rw [labels_cons, labels_cons]
    by_cases dot : c = unit '.'
    · subst dot
      rw [if_pos rfl, if_pos (same_dot.mp here).symm]
      exact .cons .nil ih
    have dot' : d ≠ unit '.' := by
      rintro rfl
      exact dot (same_dot.mp here.symm).symm
    rw [if_neg dot, if_neg dot']
    obtain ⟨rest, split⟩ := exists_labels name
    rw [split] at ih ⊢
    obtain ⟨label', rest', label, rest, split'⟩ := List.forall₂_cons_left_iff.mp ih
    rw [split']
    exact .cons (.cons here label) rest

theorem length_labels (name : JSString) : (labels name).length = name.count (unit '.') + 1 := by
  induction name with
  | nil => rfl
  | cons c name ih =>
    rw [labels_cons, count_cons]
    by_cases dot : c = unit '.'
    · simp [dot, ih]
    · simp [dot, ih]

end Labels

/-! ## The dot at the end -/

theorem sat_id_char {c d : UInt16} : Atom.sat id (.char c) d = true ↔ c = d := by simp [Atom.sat]

theorem test_endsInDot (name : JSString) :
    test endsInDot name = true ↔ ∃ front, name = front ++ [unit '.'] := by
  rw [test, endsInDot, Pattern.test, any_cons, any_nil, Bool.or_false, search_iff]
  constructor
  · rintro ⟨front, rest, rfl, holds⟩
    rw [run, once_iff] at holds
    obtain ⟨c, rest, rfl, dot, stop⟩ := holds
    rw [run, run, Bool.and_true, List.isEmpty_iff] at stop
    simp [stop, ← sat_id_char.mp dot]
  rintro ⟨front, rfl⟩
  refine ⟨front, [unit '.'], rfl, ?_⟩
  rw [run, once_iff]
  exact ⟨unit '.', [], rfl, sat_id_char.mpr rfl, rfl⟩

theorem canonical_eq (name : JSString) : canonical name = dropDot name ++ [unit '.'] := by
  rw [canonical, dropDot]
  by_cases dotted : test endsInDot name = true
  · obtain ⟨front, rfl⟩ := (test_endsInDot name).mp dotted
    simp [dotted]
  rw [if_neg dotted, if_neg]
  intro last
  obtain ⟨front, split⟩ := List.getLast?_eq_some_iff.mp last
  exact dotted ((test_endsInDot name).mpr ⟨front, split⟩)

/-! ## The names that mean what they say -/

/-- A wildcard is followed by a character that means itself and stands in the left-most label,
which has no other star. -/
def PlainAt (name : JSString) (i : Nat) : Prop :=
  name[i]? = some (unit '*') → ∀ sub ∈ name[i + 1]?.toList, isSub sub = true →
    sub ∉ js ".\\^" ∧ unit '.' ∉ name.take i ∧ unit '*' ∉ name.take i ∧
      unit '*' ∉ (name.drop (i + 1)).takeWhile (· ≠ unit '.')

/-- Every wildcard of a name is plain. -/
def Plain (name : JSString) : Prop := ∀ i < name.length, PlainAt name i

instance (name : JSString) (i : Nat) : Decidable (PlainAt name i) :=
  decidable_of_iff
    (name[i]? = some (unit '*') → (name[i + 1]?.toList.all fun sub => decide (isSub sub = true →
      sub ∉ js ".\\^" ∧ unit '.' ∉ name.take i ∧ unit '*' ∉ name.take i ∧
        unit '*' ∉ (name.drop (i + 1)).takeWhile (· ≠ unit '.'))) = true)
    (by simp only [List.all_eq_true, decide_eq_true_eq, PlainAt])

instance (name : JSString) : Decidable (Plain name) :=
  inferInstanceAs (Decidable (∀ i < name.length, PlainAt name i))

section Plain

variable {table : CaseTable} {name host before after : JSString} {sub : UInt16}
variable {c d : UInt16} {taken : JSString}

theorem Plain.wildcard (plain : Plain name) (wild : Wildcard name before sub after) :
    sub ∉ js ".\\^" ∧ unit '.' ∉ before ∧ unit '*' ∉ before ∧
      unit '*' ∉ (sub :: after).takeWhile (· ≠ unit '.') := by
  obtain ⟨rfl, isSub⟩ := wild
  have here := plain before.length (by simp) (by simp) sub (by simp) isSub
  rw [take_left] at here
  have rest : (before ++ unit '*' :: sub :: after).drop (before.length + 1) = sub :: after := by
    simp
  rw [rest] at here
  exact here

theorem Plain.legible (plain : Plain name) : Legible name := by
  intro before sub after wild
  have marks := (plain.wildcard wild).1
  constructor
  · rintro rfl
    exact marks (by decide)
  rintro rfl
  exact marks (by decide)

theorem Expands.split (expands : Expands table name host) :
    (SameLabel table name host ∧ ∀ before sub after, ¬Wildcard name before sub after) ∨
      ∃ before sub after before' taken d after', Wildcard name before sub after ∧
        host = before' ++ taken ++ d :: after' ∧ SameLabel table before before' ∧
          (∀ c ∈ taken, Wild table c) ∧ (subAtom sub).sat table.canonicalize d = true ∧
            Expands table after after' := by
  induction expands with
  | nil =>
    refine .inl ⟨.nil, ?_⟩
    rintro before sub after ⟨split, -⟩
    simp at split
  | @char c d name host plain here _ ih =>
    rcases ih with ⟨same, none⟩ | ⟨before, sub, after, before', taken, d', after', wild, rfl, ih⟩
    · refine .inl ⟨.cons here same, ?_⟩
      rintro (_ | ⟨c', before⟩) sub after wild
      · exact plain sub after wild
      obtain ⟨split, isSub⟩ := wild
      rw [cons_append, List.cons.injEq] at split
      exact none before sub after ⟨split.2, isSub⟩
    exact .inr ⟨c :: before, sub, after, d :: before', taken, d', after', wild.cons, rfl,
      .cons here ih.1, ih.2⟩
  | @wildcard sub d taken name host isSub class' here expands _ =>
    exact .inr ⟨[], sub, name, [], taken, d, host, ⟨rfl, isSub⟩, rfl, .nil, class', here, expands⟩

theorem SameLabel.concat :
    SameLabel table (name ++ [c]) (host ++ [d]) ↔ SameLabel table name host ∧ Same table c d := by
  unfold SameLabel
  rw [← List.forall₂_reverse_iff, reverse_concat, reverse_concat, List.forall₂_cons,
    List.forall₂_reverse_iff, and_comm]

theorem SameLabel.dot_notMem (same : SameLabel table name host) (noDot : unit '.' ∉ name) :
    unit '.' ∉ host := by
  induction same with
  | nil => exact noDot
  | cons here _ ih =>
    rw [mem_cons, not_or] at noDot ⊢
    refine ⟨?_, ih noDot.2⟩
    rintro rfl
    exact noDot.1 (same_dot.mp here.symm)

theorem Wild.ne_dot (wild : Wild table c) : c ≠ unit '.' := by
  rintro rfl
  obtain ⟨member, mem, same⟩ := wild
  have dot := same_dot.mp same.symm
  rw [← dot] at mem
  exact (by decide : unit '.' ∉ members wildcardClass) mem

theorem exists_members (wild : ∀ c ∈ taken, Wild table c) :
    ∃ taken', (∀ c ∈ taken', c ∈ members wildcardClass) ∧ SameLabel table taken' taken := by
  induction taken with
  | nil => exact ⟨[], by simp, .nil⟩
  | cons c taken ih =>
    obtain ⟨taken', mem, same⟩ := ih fun d tail => wild d (mem_cons_of_mem c tail)
    obtain ⟨member, here, first⟩ := wild c mem_cons_self
    exact ⟨member :: taken', forall_mem_cons.mpr ⟨here, mem⟩, .cons first same⟩

theorem Plain.no_later (plain : Plain name) (wild : Wildcard name before sub after)
    (before' : JSString) (sub' : UInt16) (after' : JSString) :
    ¬Wildcard after before' sub' after' := by
  intro later
  have whole : Wildcard name (before ++ unit '*' :: sub :: before') sub' after' := by
    obtain ⟨rfl, -⟩ := wild
    obtain ⟨rfl, isSub⟩ := later
    exact ⟨by simp, isSub⟩
  exact (plain.wildcard whole).2.2.1 (by simp)

theorem concat_eq_append_cons {front start rest : JSString} {last : UInt16}
    (split : front ++ [last] = start ++ c :: rest) :
    (rest = [] ∧ c = last) ∨ ∃ middle, rest = middle ++ [last] ∧ front = start ++ c :: middle := by
  rcases eq_nil_or_concat rest with rfl | ⟨middle, last', rfl⟩
  · left
    exact ⟨rfl, (append_inj' split rfl).2 |> singleton_inj.mp |>.symm⟩
  right
  have assoc : start ++ c :: middle.concat last' = (start ++ c :: middle) ++ [last'] := by simp
  rw [assoc] at split
  obtain ⟨rfl, same⟩ := append_inj' split rfl
  obtain rfl := singleton_inj.mp same
  exact ⟨middle, concat_eq_append, rfl⟩

theorem matches_of_wildcard {before' after' : JSString}
    (nameEq : dropDot name = before ++ unit '*' :: sub :: after)
    (hostEq : dropDot host = before' ++ taken ++ d :: after')
    (noDot : unit '.' ∉ before) (subNe : sub ≠ unit '.') (noStar : unit '*' ∉ before)
    (noStar' : unit '*' ∉ (sub :: after).takeWhile (· ≠ unit '.'))
    (front : SameLabel table before before') (wild : ∀ c ∈ taken, Wild table c)
    (here : Same table sub d) (back : SameLabel table after after') : Matches table name host := by
  obtain ⟨rest, eq⟩ := exists_labels after
  have pairs := labels_same back
  rw [eq] at pairs
  obtain ⟨left', rest', left, tail, eq'⟩ := List.forall₂_cons_left_iff.mp pairs
  rw [takeWhile_cons_of_pos (by simpa using subNe)] at noStar'
  set label := after.takeWhile (· ≠ unit '.') with label_eq
  have dNe : d ≠ unit '.' := by
    rintro rfl
    exact subNe (same_dot.mp here.symm).symm
  have nameLabels : labels (dropDot name) = (before ++ unit '*' :: sub :: label) :: rest := by
    have assoc : dropDot name = (before ++ [unit '*', sub]) ++ after := by simp [nameEq]
    rw [assoc, labels_append, eq, modifyHead_cons]
    · simp
    · simp [noDot, Ne.symm subNe, (by decide : unit '.' ≠ unit '*')]
  have hostLabels : labels (dropDot host) = (before' ++ taken ++ d :: left') :: rest' := by
    have assoc : dropDot host = (before' ++ taken ++ [d]) ++ after' := by simp [hostEq]
    rw [assoc, labels_append, eq', modifyHead_cons]
    · simp
    have noTaken : unit '.' ∉ taken := fun mem => (wild _ mem).ne_dot rfl
    simp [front.dot_notMem noDot, noTaken, Ne.symm dNe]
  obtain ⟨taken', class', same⟩ := exists_members wild
  refine ⟨_, rest, _, rest', nameLabels, hostLabels, .inr ?_, tail⟩
  refine ⟨before, taken', sub :: label, rfl, ?_, class', ?_⟩
  · grind
  · exact rel_append (rel_append front same) (.cons here left)

theorem Plain.matches (plain : Plain (canonical name))
    (expands : Expands table (canonical name) (canonical host)) : Matches table name host := by
  rw [canonical_eq host] at expands
  rcases expands.split with
    ⟨same, -⟩ | ⟨before, sub, after, before', taken, d, after', wild, split, front,
     class', here, back⟩
  · rw [canonical_eq] at same
    have pairs := labels_same (SameLabel.concat.mp same).1
    obtain ⟨rest, eq⟩ := exists_labels (dropDot name)
    rw [eq] at pairs
    obtain ⟨left', rest', left, tail, eq'⟩ := List.forall₂_cons_left_iff.mp pairs
    exact ⟨_, rest, left', rest', eq, eq', .inl left, tail⟩
  obtain ⟨marks, noDot, noStar, noStar'⟩ := plain.wildcard wild
  have subNe : sub ≠ unit '.' := by
    rintro rfl
    exact marks (by decide)
  have after_same : SameLabel table after after' := by
    rcases back.split with ⟨same, -⟩ | ⟨b, s, a, -, -, -, -, later, -⟩
    · exact same
    · exact absurd later (plain.no_later wild b s a)
  rw [subAtom, if_neg subNe, sat_char] at here
  -- both end in a dot, which is not part of the labels
  have nameSplit : dropDot name ++ [unit '.'] = (before ++ [unit '*']) ++ sub :: after := by
    simp [← canonical_eq, wild.1]
  rcases concat_eq_append_cons nameSplit with ⟨-, dot⟩ | ⟨middle, rfl, nameEq⟩
  · exact absurd dot subNe
  rcases concat_eq_append_cons split with ⟨rfl, -⟩ | ⟨middle', rfl, hostEq⟩
  · simp at after_same
  rw [append_assoc, singleton_append] at nameEq
  have noStar'' : unit '*' ∉ (sub :: middle).takeWhile (· ≠ unit '.') := by
    intro mem
    rw [← cons_append, takeWhile_append] at noStar'
    split at noStar'
    · exact noStar' (mem_append_left _ ((List.takeWhile_prefix _).subset mem))
    · exact noStar' mem
  exact matches_of_wildcard nameEq hostEq noDot subNe noStar noStar'' front class' here
    (SameLabel.concat.mp after_same).1

end Plain

/-! ## The checks of a name with a star -/

section Checks

variable {name before middle after : JSString} {c : UInt16}

theorem test_starLater (mark : c = unit '.' ∨ c = unit '*')
    (line : ∀ ch ∈ middle, isLineTerminator ch = false) :
    test starLater (before ++ c :: middle ++ unit '*' :: after) = true := by
  rw [test, starLater, Pattern.test, any_cons, any_nil, Bool.or_false, search_iff]
  refine ⟨before, c :: middle ++ unit '*' :: after, append_assoc _ _ _, ?_⟩
  rw [run, once_iff]
  refine ⟨c, middle ++ unit '*' :: after, rfl, ?_, ?_⟩
  · rcases mark with rfl | rfl
    · decide
    · decide
  rw [run, many_iff]
  refine ⟨middle, unit '*' :: after, rfl, ?_, ?_⟩
  · intro ch mem
    simp [Atom.sat, line ch mem]
  rw [run, once_iff]
  exact ⟨unit '*', after, rfl, sat_id_char.mpr rfl, rfl⟩

theorem star_unique (line : ∀ ch ∈ name, isLineTerminator ch = false)
    (stays : test starLater name = false) (split : name = before ++ unit '*' :: after) :
    unit '.' ∉ before ∧ unit '*' ∉ before ∧ unit '*' ∉ after := by
  subst split
  have none : ∀ c, c = unit '.' ∨ c = unit '*' → c ∉ before := by
    intro c mark mem
    obtain ⟨first, middle, rfl⟩ := append_of_mem mem
    refine absurd (test_starLater mark ?_) (Bool.eq_false_iff.mp stays)
    intro ch mem
    exact line ch (by simp [mem])
  refine ⟨none _ (.inl rfl), none _ (.inr rfl), ?_⟩
  intro mem
  obtain ⟨middle, rest, rfl⟩ := append_of_mem mem
  have later : test starLater (before ++ unit '*' :: middle ++ unit '*' :: rest) = true := by
    refine test_starLater (.inr rfl) ?_
    intro ch mem
    exact line ch (by simp [mem])
  rw [append_assoc, cons_append] at later
  exact absurd later (Bool.eq_false_iff.mp stays)

theorem test_dotsAfterStar (dots : test dotsAfterStar name = true) :
    ∃ before after, name = before ++ unit '*' :: after ∧ 1 < after.length := by
  rw [test, dotsAfterStar, Pattern.test, any_cons, any_nil, Bool.or_false, search_iff] at dots
  obtain ⟨before, rest, rfl, holds⟩ := dots
  rw [run, once_iff] at holds
  obtain ⟨star, rest, rfl, isStar, holds⟩ := holds
  rw [run, many_iff] at holds
  obtain ⟨taken, rest, rfl, -, holds⟩ := holds
  rw [run, once_iff] at holds
  obtain ⟨dot, rest, rfl, -, holds⟩ := holds
  rw [run, once_iff] at holds
  obtain ⟨some, rest, rfl, -, -⟩ := holds
  rw [← sat_id_char.mp isStar]
  refine ⟨before, _, rfl, ?_⟩
  rw [length_append, length_cons, length_cons]
  omega

theorem test_hasStar (name : JSString) : test hasStar name = true ↔ unit '*' ∈ name := by
  rw [test, hasStar, Pattern.test, any_cons, any_nil, Bool.or_false, search_iff]
  constructor
  · rintro ⟨before, rest, rfl, holds⟩
    rw [run, once_iff] at holds
    obtain ⟨star, rest, rfl, isStar, -⟩ := holds
    rw [← sat_id_char.mp isStar]
    simp
  intro mem
  obtain ⟨before, after, rfl⟩ := append_of_mem mem
  refine ⟨before, unit '*' :: after, rfl, ?_⟩
  rw [run, once_iff]
  exact ⟨unit '*', after, rfl, sat_id_char.mpr rfl, rfl⟩

end Checks

/-! ## A dot after a wildcard -/

section Dot

variable {table : CaseTable} {name host before after : JSString}

theorem Expands.refl_append (noStar : unit '*' ∉ before) (expands : Expands table name host) :
    Expands table (before ++ name) (before ++ host) := by
  induction before with
  | nil => exact expands
  | cons c before ih =>
    rw [mem_cons, not_or] at noStar
    refine .char ?_ rfl (ih noStar.2)
    rintro sub after ⟨split, -⟩
    rw [nil_append, List.cons.injEq] at split
    exact noStar.1 split.1.symm

theorem expands_dot (noStar : unit '*' ∉ before) (noStar' : unit '*' ∉ after) :
    Expands table (before ++ unit '*' :: unit '.' :: after) (before ++ unit 'x' :: after) := by
  refine Expands.refl_append noStar ?_
  have rest : Expands table after after := by
    have whole : Expands table (after ++ []) (after ++ []) := Expands.refl_append noStar' .nil
    rwa [append_nil] at whole
  have any : (subAtom (unit '.')).sat table.canonicalize (unit 'x') = true := rfl
  have here : Expands table (unit '*' :: unit '.' :: after) ([] ++ unit 'x' :: after) :=
    .wildcard (by decide) (by simp) any rest
  exact here

theorem not_matches_dot (split : canonical name = before ++ unit '*' :: unit '.' :: after)
    (ends : canonical host = before ++ unit 'x' :: after) : ¬Matches table name host := by
  rintro ⟨left, rest, left', rest', eq, eq', -, tail⟩
  have count : (dropDot name).count (unit '.') = (dropDot host).count (unit '.') := by
    have one := length_labels (dropDot name)
    have two := length_labels (dropDot host)
    rw [eq, length_cons] at one
    rw [eq', length_cons] at two
    have same := tail.length_eq
    omega
  rw [canonical_eq] at split ends
  have one := congrArg (List.count (unit '.')) split
  have two := congrArg (List.count (unit '.')) ends
  have letter : (unit 'x' == unit '.') = false := by decide
  simp only [count_append, count_cons, count_nil, letter, beq_self_eq_true]
    at one two
  simp at one two
  omega

end Dot

/-! ## Hosts that are accepted -/

section Accepted

variable {env : Environment} {host : JSString} {cert : Certificate} {text : JSString}

/-- A host other than an IP address for which no error is returned -/
def Accepted (env : Environment) (host : JSString) (cert : Certificate) : Prop :=
  env.isIP host = 0 ∧ checkServerIdentity env host cert = .returned none

/-- Some name of the certificate matches the host. -/
def Certified (env : Environment) (host : JSString) (cert : Certificate) : Prop :=
  ∃ text wildcards, (Name.string text, wildcards) ∈ cert.names env ∧ Matches env.table text host

/-- A name that is a string and either matches nothing or has plain wildcards only -/
def Faithful (name : Name × Bool) : Prop :=
  ∃ text, name.1 = .string text ∧ (rejects (canonical text) name.2 = true ∨ Plain (canonical text))

theorem mem_regexps {names : List (Name × Bool)} {res : List (JSString → Bool)}
    {re : JSString → Bool} (all : regexps env names = some res) (mem : re ∈ res) :
    ∃ name ∈ names, regexpify env name.1 name.2 = some re := by
  induction names generalizing res with
  | nil => grind [regexps]
  | cons name names ih =>
    rw [regexps, mapM_cons] at all
    obtain ⟨first, eq, all⟩ := bind_eq_some_iff.mp all
    obtain ⟨others, eq', all⟩ := bind_eq_some_iff.mp all
    obtain rfl : first :: others = res := by simpa using all
    rcases mem_cons.mp mem with rfl | mem
    · exact ⟨name, mem_cons_self, eq⟩
    obtain ⟨name', mem', eq''⟩ := ih eq' mem
    exact ⟨name', mem_cons_of_mem name mem', eq''⟩

theorem accepted_iff : Accepted env host cert ↔
    env.isIP host = 0 ∧ ∃ res, regexps env (cert.names env) = some res ∧
      ∃ re ∈ res, re (canonical host) = true := by
  grind [Accepted, checkServerIdentity]

theorem certified_of_accepted (faithful : ∀ name ∈ cert.names env, Faithful name)
    (accepted : Accepted env host cert) : Certified env host cert := by
  obtain ⟨-, res, all, re, mem, holds⟩ := accepted_iff.mp accepted
  obtain ⟨⟨name, wildcards⟩, listed, eq⟩ := mem_regexps all mem
  obtain ⟨text, rfl, check⟩ := faithful _ listed
  refine ⟨text, wildcards, listed, ?_⟩
  by_cases rejected : rejects (canonical text) wildcards = true
  · have never_eq := regexpify_rejected env (.string text) rejected
    obtain rfl := some.inj (never_eq.symm.trans eq)
    simp [test_never] at holds
  have plain : Plain (canonical text) := check.resolve_left rejected
  obtain ⟨re', eq', reads⟩ :=
    regexpify_legible env (.string text) (Bool.eq_false_iff.mpr rejected) plain.legible
  obtain rfl := some.inj (eq'.symm.trans eq)
  exact plain.matches ((reads _).mp holds)

/-- Without line terminators a name that is kept has no wildcard that is not plain, other than
one before a dot, a backslash or a caret. -/
theorem plain_of_kept {name : JSString} (line : ∀ ch ∈ name, isLineTerminator ch = false)
    (stays : rejects name true = false) (legible : Legible name)
    (noDot : ∀ before after, ¬Wildcard name before (unit '.') after) : Plain name := by
  intro i inside star sub next isSub
  have later : test starLater name = false := by
    rw [rejects, Bool.or_eq_false_iff, Bool.or_eq_false_iff] at stays
    exact stays.1.2
  have split : name = name.take i ++ unit '*' :: name.drop (i + 1) := by
    rw [List.getElem?_eq_some_iff] at star
    obtain ⟨inside, star⟩ := star
    rw [← star, getElem_cons_drop, take_append_drop]
  obtain ⟨dot, before, after⟩ := star_unique line later split
  have wild : Wildcard name (name.take i) sub (name.drop (i + 2)) := by
    refine ⟨?_, isSub⟩
    have here : name[i + 1]? = some sub := by simpa using next
    obtain ⟨inside', here⟩ := List.getElem?_eq_some_iff.mp here
    rw [← here, getElem_cons_drop, ← split]
  refine ⟨?_, dot, before, fun mem => after ((List.takeWhile_prefix _).subset mem)⟩
  intro mark
  have marks : js ".\\^" = [unit '.', unit '\\', unit '^'] := rfl
  rw [marks, mem_cons, mem_cons, mem_singleton] at mark
  rcases mark with rfl | rfl | rfl
  · exact noDot _ _ wild
  · exact (legible _ _ _ wild).1 rfl
  · exact (legible _ _ _ wild).2 rfl

theorem canonical_line (line : ∀ ch ∈ text, isLineTerminator ch = false) :
    ∀ ch ∈ canonical text, isLineTerminator ch = false := by
  intro ch mem
  rw [canonical] at mem
  split at mem
  · exact line ch mem
  rcases mem_append.mp mem with mem | mem
  · exact line ch mem
  rw [mem_singleton.mp mem]
  decide

/-- With a dot after its wildcard, the only name of a certificate lets in a host that it does
not match. -/
theorem accepted_of_dot {before after : JSString} (only : cert.names env = [(.string text, true)])
    (line : ∀ ch ∈ text, isLineTerminator ch = false)
    (stays : rejects (canonical text) true = false)
    (wild : Wildcard (canonical text) before (unit '.') after)
    (notIP : env.isIP (before ++ unit 'x' :: after) = 0) :
    Accepted env (before ++ unit 'x' :: after) cert ∧
      ¬Matches env.table text (before ++ unit 'x' :: after) := by
  rw [rejects, Bool.not_true, Bool.false_and, Bool.false_or, Bool.or_eq_false_iff,
    Bool.and_eq_false_iff] at stays
  obtain ⟨-, noStar, noStar'⟩ := star_unique (canonical_line line) stays.1 wild.1
  have alone : ∀ b rest, canonical text = b ++ unit '*' :: rest →
      before = b ∧ unit '.' :: after = rest := by
    intro b rest split
    have both := wild.1.symm.trans split
    obtain ⟨rfl, -, rfl⟩ := (append_cons_inj_of_notMem noStar noStar').mp both
    exact ⟨rfl, rfl⟩
  have starred : test hasStar (canonical text) = true := by
    rw [test_hasStar, wild.1]
    simp
  have dots : test dotsAfterStar (canonical text) = true := by
    rcases stays.2 with none | some
    · simp [starred] at none
    · simpa using some
  obtain ⟨b, rest, split, long⟩ := test_dotsAfterStar dots
  obtain ⟨-, rfl⟩ := alone b rest split
  have nameSplit : dropDot text ++ [unit '.'] = (before ++ [unit '*']) ++ unit '.' :: after := by
    rw [← canonical_eq, wild.1, append_assoc, singleton_append]
  rcases concat_eq_append_cons nameSplit with ⟨rfl, -⟩ | ⟨middle, rfl, -⟩
  · simp at long
  have hostEq : canonical (before ++ unit 'x' :: (middle ++ [unit '.'])) =
      before ++ unit 'x' :: (middle ++ [unit '.']) := by
    rw [canonical, if_pos ((test_endsInDot _).mpr ⟨before ++ unit 'x' :: middle, by simp⟩)]
  have legible : Legible (canonical text) := by
    rintro b sub rest ⟨split, -⟩
    obtain ⟨-, eq⟩ := alone b (sub :: rest) split
    rw [List.cons.injEq] at eq
    rw [← eq.1]
    decide
  have kept : rejects (canonical text) true = false := by
    rw [rejects, stays.1, starred, dots]
    rfl
  obtain ⟨re, eq, reads⟩ := regexpify_legible env (.string text) kept legible
  refine ⟨accepted_iff.mpr ⟨notIP, [re], ?_, re, mem_singleton_self re, ?_⟩, ?_⟩
  · simp [only, regexps, eq]
  · rw [hostEq, reads]
    change Expands env.table (canonical text) _
    rw [wild.1]
    exact expands_dot noStar fun mem => noStar' (mem_cons_of_mem _ mem)
  · exact not_matches_dot wild.1 hostEq

/-- A host that is accepted is matched by a name of the certificate, where every name is faithful;
and a certificate of one name needs its name to be so. -/
theorem accepted_is_certified (env : Environment) :
    (∀ host cert, (∀ name ∈ cert.names env, Faithful name) →
        Accepted env host cert → Certified env host cert) ∧
      ∀ cert text, cert.names env = [(.string text, true)] →
        (∀ ch ∈ text, isLineTerminator ch = false) → Legible (canonical text) →
          (∀ host, unit 'x' ∈ host → env.isIP host = 0) →
            ((∀ host, Accepted env host cert → Certified env host cert) ↔
              Faithful (.string text, true)) := by
  refine ⟨fun host cert => certified_of_accepted, ?_⟩
  intro cert text only line legible notIP
  constructor
  · intro sound
    refine ⟨text, rfl, ?_⟩
    by_cases rejected : rejects (canonical text) true = true
    · exact .inl rejected
    right
    have stays := Bool.eq_false_iff.mpr rejected
    refine plain_of_kept (canonical_line line) stays legible ?_
    intro before after wild
    obtain ⟨accepted, other⟩ := accepted_of_dot only line stays wild (notIP _ (by simp))
    obtain ⟨text', wildcards, mem, found⟩ := sound _ accepted
    rw [only, mem_singleton] at mem
    cases mem
    exact other found
  intro faithful host accepted
  refine certified_of_accepted ?_ accepted
  rw [only]
  intro name mem
  rw [mem_singleton.mp mem]
  exact faithful

end Accepted

/-- The upper case of ASCII letters -/
def asciiTable : CaseTable where
  toUpperCase ch := if 0x61 ≤ ch ∧ ch ≤ 0x7A then [ch - 0x20] else [ch]
  lower _ low high := if_pos ⟨low, high⟩
  other _ _ other := if_neg other

/-- Hosts that are no IP addresses, and no URIs -/
def asciiEnvironment : Environment where
  table := asciiTable
  engine := .plain asciiTable
  isIP _ := 0
  hostname _ := none

/-- `*d.example.com` is faithful: the host `WebD.example.com` is accepted, and certified. -/
theorem accepted_is_certified_wildcard :
    Accepted asciiEnvironment (js "WebD.example.com") ⟨some (js "DNS:*d.example.com"), .undefined⟩ ∧
      Certified asciiEnvironment (js "WebD.example.com")
        ⟨some (js "DNS:*d.example.com"), .undefined⟩ := by
  have accepted : Accepted asciiEnvironment (js "WebD.example.com")
      ⟨some (js "DNS:*d.example.com"), .undefined⟩ := ⟨rfl, by decide⟩
  have names : Certificate.names asciiEnvironment ⟨some (js "DNS:*d.example.com"), .undefined⟩ =
      [(.string (js "*d.example.com"), true)] := by decide
  refine ⟨accepted, (accepted_is_certified asciiEnvironment).1 _ _ ?_ accepted⟩
  intro name mem
  rw [names, mem_singleton] at mem
  exact ⟨js "*d.example.com", by rw [mem], .inr (by decide)⟩

/-- The name `*.example.com` lets the host `evilexample.com` in. -/
theorem evil_host_accepted :
    ¬∀ host cert, Accepted asciiEnvironment host cert → Certified asciiEnvironment host cert := by
  intro sound
  have only : Certificate.names asciiEnvironment ⟨none, .one (js "*.example.com")⟩ =
      [(.string (js "*.example.com"), true)] := by decide
  obtain ⟨text, wildcards, mem, left, rest, left', rest', eq, eq', -, tail⟩ :=
    sound (js "evilexample.com") ⟨none, .one (js "*.example.com")⟩ ⟨rfl, by decide⟩
  rw [only, mem_singleton, Prod.mk.injEq, Name.string.injEq] at mem
  obtain ⟨rfl, -⟩ := mem
  have three : (labels (dropDot (js "*.example.com"))).length = 3 := by decide
  have two : (labels (dropDot (js "evilexample.com"))).length = 2 := by decide
  rw [eq, length_cons] at three
  rw [eq', length_cons] at two
  have same := tail.length_eq
  omega

end IoJs.Tls
