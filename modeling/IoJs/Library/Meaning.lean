import IoJs.Library.Rewriting
import Mathlib.Order.WellFounded

/-!
# Walks that agree with a meaning

Lists of names have a meaning of their own, part by part: what a list means does not change if a
beginning is replaced by what it means. The walk, which replaces links by their targets, agrees with
it along a list and the targets of the links that are met exactly if each of these targets means
what its link means, and there is no endless chain of links where each one is met on the way along
the target of the one before (`agree_iff`).
-/

namespace IoJs.Library.Place

open List

variable {Name E : Type*} (look : List Name → Entry Name E) (Valid : Name → Prop)
  (Means : List Name → List Name → Prop)

/-- A meaning of lists, for which hard lists stand for themselves -/
structure Meaning : Prop where
  unique : ∀ ⦃a h h' : List Name⦄, Means a h → Means a h' → h = h'
  hard : ∀ ⦃a h : List Name⦄, Means a h → (∀ name ∈ h, Valid name) → Hard look h
  self : ∀ ⦃a : List Name⦄, (∀ name ∈ a, Valid name) → Hard look a → Means a a
  append : ∀ ⦃a h : List Name⦄, Means a h → ∀ b r, Means (a ++ b) r ↔ Means (h ++ b) r
  fails : ∀ ⦃a : List Name⦄, (¬∃ h, Means a h) → ∀ b, ¬∃ r, Means (a ++ b) r
  missing : ∀ ⦃done : List Name⦄ ⦃name : Name⦄ ⦃error : E⦄, (∀ name ∈ done, Valid name) →
    Valid name → Hard look done → look (done ++ [name]) = .missing error →
      ¬∃ r, Means (done ++ [name]) r

/-- A link in a hard place, with its target -/
structure Link (link target : List Name) : Prop where
  place : ∃ done name, link = done ++ [name] ∧ Hard look done
  valid : ∀ name ∈ link, Valid name
  leads : look link = .link target

/-- The walk has the result that the list means, and an error if it means nothing. -/
def Agrees (a : List Name) : Prop :=
  (∃ h, Means a h ∧ Returns (turn look) ([], a) (.ok h)) ∨
    (¬∃ h, Means a h) ∧ ∃ error, Returns (turn look) ([], a) (.error error)

/-- A name of a list, behind what the names before it mean -/
def Meets (a link : List Name) : Prop :=
  ∃ before name behind h, a = before ++ name :: behind ∧ Means before h ∧ link = h ++ [name]

/-- A link is met on the way along the target of another one. -/
def MetBehind (link' link : List Name) : Prop :=
  ∃ target target', Link look Valid link target ∧ Link look Valid link' target' ∧
    Meets Means target link'

/-- Lists with their beginnings, and with the targets of the links that are met on the way -/
structure Closed (S : List Name → Prop) : Prop where
  valid : ∀ ⦃a⦄, S a → ∀ name ∈ a, Valid name
  front : ∀ ⦃a b⦄, S (a ++ b) → S a
  target : ∀ ⦃a link target⦄, S a → Meets Means a link → Link look Valid link target → S target

variable {look Valid Means} {S : List Name → Prop} {a names done rest more target link : List Name}
  {name : Name}
  {error : E} {n : ℕ} {r : Except E (List Name)} {place : Place Name}

theorem after_append_error (ended : after (turn look) n (done, rest) = .inr (.error error))
    (more : List Name) : after (turn look) n (done, rest ++ more) = .inr (.error error) := by
  rw [turn_eq] at ended ⊢
  exact after_advance_error ended more

theorem exists_of_append (ended : after (turn look) n (done, rest ++ more) = .inr r) :
    ∃ r', after (turn look) n (done, rest) = .inr r' := by
  rw [turn_eq] at ended ⊢
  exact exists_of_after_append ended

theorem returns_link_iff (leads : look (done ++ [name]) = .link target) (r : Except E (List Name)) :
    Returns (turn look) (done, [name]) r ↔ Returns (turn look) ([], target) r := by
  have turned : after (turn look) 1 (done, [name]) = .inl ([], target) := by
    rw [after_one, turn_link leads, append_nil]
  exact returns_iff_of_after turned

namespace Meaning

variable (meaning : Meaning look Valid Means)

include meaning

theorem agrees_hard (valid : ∀ name ∈ a, Valid name) (hard : Hard look a) :
    Agrees look Means a := .inl ⟨a, meaning.self valid hard, returns_of_hard hard⟩

/-- One more name, which may be a link whose target agrees and means what the link does -/
theorem agrees_snoc (agrees : Agrees look Means a)
    (validMeans : ∀ h, Means a h → ∀ name ∈ h, Valid name) (valid : Valid name)
    (link : ∀ h target, Means a h → look (h ++ [name]) = .link target →
      (Agrees look Means target ∧ ∀ h', Means target h' → ∀ name ∈ h', Valid name) ∧
        ∀ r, Means target r ↔ Means (h ++ [name]) r) :
    Agrees look Means (a ++ [name]) ∧ ∀ h, Means (a ++ [name]) h → ∀ name ∈ h, Valid name := by
  rcases agrees with ⟨h, means, returns⟩ | ⟨nothing, error, n, ended⟩
  · obtain ⟨hard, k, passed⟩ := exists_after_of_returns returns
    have same := meaning.append means [name]
    have walked : after (turn look) (k + h.length) ([], a ++ [name]) = .inl (h, [name]) := by
      rw [after_add_inl (passed [name])]
      exact after_hard (show Hard look ([] ++ h) from hard) [name]
    have validh := validMeans h means
    cases found : look (h ++ [name]) with
    | missing error =>
      have none_ := meaning.missing validh valid hard found
      refine ⟨.inr ⟨fun ⟨r, means'⟩ => none_ ⟨r, (same r).mp means'⟩, error, ?_⟩, ?_⟩
      · refine (returns_iff_of_after walked).mpr (.done ?_)
        rw [turn, found]
        rfl
      exact fun r means' => absurd ⟨r, (same r).mp means'⟩ none_
    | hard =>
      have hard' := hard_snoc.mpr ⟨hard, found⟩
      have valid' : ∀ name' ∈ h ++ [name], Valid name' := by
        intro name' mem
        rcases mem_append.mp mem with mem | mem
        · exact validh name' mem
        · exact mem_singleton.mp mem ▸ valid
      have one : after (turn look) 1 (h, [name]) = .inl (h ++ [name], []) := by
        rw [after_one, turn_hard found]
      have means' := (same _).mpr (meaning.self valid' hard')
      refine ⟨.inl ⟨h ++ [name], means', ?_⟩, fun r means'' => ?_⟩
      · exact (returns_iff_of_after walked).mpr ((returns_iff_of_after one).mpr (.done rfl))
      exact meaning.unique means' means'' ▸ valid'
    | link target =>
      obtain ⟨⟨agrees, validTarget⟩, means'⟩ := link h target means found
      have on : ∀ r, Returns (turn look) ([], a ++ [name]) r ↔ Returns (turn look) ([], target) r :=
        fun r => (returns_iff_of_after walked).trans (returns_link_iff found r)
      refine ⟨?_, fun r means'' => validTarget r ((means' r).mpr ((same r).mp means''))⟩
      rcases agrees with ⟨h', meansTarget, returnsTarget⟩ | ⟨nothing, error, failed⟩
      · exact .inl ⟨h', (same h').mpr ((means' h').mp meansTarget), (on _).mpr returnsTarget⟩
      refine .inr ⟨fun ⟨r, means''⟩ => ?_, error, (on _).mpr failed⟩
      exact nothing ⟨r, (means' r).mpr ((same r).mp means'')⟩
  · have none_ := meaning.fails nothing [name]
    refine ⟨.inr ⟨none_, error, n, after_append_error ended [name]⟩, ?_⟩
    exact fun r means => absurd ⟨r, means⟩ none_

/-- A list agrees where the targets of the links that are met agree and mean what the links do. -/
theorem agrees_of_meets (valid : ∀ name ∈ a, Valid name)
    (links : ∀ link target, Link look Valid link target → Meets Means a link →
      (Agrees look Means target ∧ ∀ h, Means target h → ∀ name ∈ h, Valid name) ∧
        ∀ r, Means target r ↔ Means link r) :
    Agrees look Means a ∧ ∀ h, Means a h → ∀ name ∈ h, Valid name := by
  induction a using List.reverseRecOn with
  | nil =>
    have self := meaning.self valid hard_nil
    exact ⟨meaning.agrees_hard valid hard_nil, fun h means => meaning.unique self means ▸ valid⟩
  | append_singleton a name ih =>
    have validName : Valid name := valid name (mem_append_right _ mem_cons_self)
    obtain ⟨before, validBefore⟩ := ih (fun name' mem => valid name' (mem_append_left _ mem))
      fun link target isLink => by
        rintro ⟨first, name', behind, h, rfl, means, rfl⟩
        exact links _ target isLink ⟨first, name', behind ++ [name], h, by simp, means, rfl⟩
    refine meaning.agrees_snoc before validBefore validName fun h target means leads => ?_
    have validh := validBefore h means
    have isLink : Link look Valid (h ++ [name]) target := by
      refine ⟨⟨h, name, rfl, meaning.hard means validh⟩, fun name' mem => ?_, leads⟩
      rcases mem_append.mp mem with mem | mem
      · exact validh name' mem
      · exact mem_singleton.mp mem ▸ validName
    exact links _ target isLink ⟨a, name, [], h, rfl, means, rfl⟩

theorem means_iff_of_agrees (isLink : Link look Valid link target)
    (agreesLink : Agrees look Means link) (agreesTarget : Agrees look Means target)
    (r : List Name) : Means target r ↔ Means link r := by
  obtain ⟨done, name, rfl, hard⟩ := isLink.place
  have walked := after_hard (show Hard look ([] ++ done) from hard) [name]
  have on : ∀ r, Returns (turn look) ([], done ++ [name]) r ↔ Returns (turn look) ([], target) r :=
    fun r => (returns_iff_of_after walked).trans (returns_link_iff isLink.leads r)
  have fromReturns : ∀ {a b : List Name}, Agrees look Means a → Agrees look Means b →
      (∀ r, Returns (turn look) ([], a) r → Returns (turn look) ([], b) r) →
        ∀ r, Means a r → Means b r := by
    rintro a b (⟨h, means, returns⟩ | ⟨nothing, -⟩) agreesB same r means'
    · obtain rfl := meaning.unique means means'
      rcases agreesB with ⟨h', meansB, returnsB⟩ | ⟨-, error, failed⟩
      · obtain rfl := Except.ok.inj ((same _ returns).unique returnsB)
        exact meansB
      · cases (same _ returns).unique failed
    · exact absurd ⟨r, means'⟩ nothing
  exact ⟨fromReturns agreesTarget agreesLink (fun r => (on r).mpr) r,
    fromReturns agreesLink agreesTarget (fun r => (on r).mp) r⟩

/-- The walk along a beginning that agrees comes to the name behind it. -/
theorem exists_after_of_agrees (agrees : Agrees look Means a) {h : List Name} (means : Means a h)
    (rest : List Name) : ∃ n, after (turn look) n ([], a ++ rest) = .inl (h, rest) := by
  have returns : Returns (turn look) ([], a) (.ok h) := by
    rcases agrees with ⟨h', means', returns⟩ | ⟨nothing, -⟩
    · exact meaning.unique means means' ▸ returns
    · exact absurd ⟨h, means⟩ nothing
  obtain ⟨hard, k, passed⟩ := exists_after_of_returns returns
  refine ⟨k + h.length, ?_⟩
  rw [after_add_inl (passed rest)]
  exact after_hard (show Hard look ([] ++ h) from hard) rest

section

variable (closed : Closed look Valid Means S) (agrees : ∀ a, S a → Agrees look Means a)
include closed agrees

/-- A link that is met agrees, as the list up to it does. -/
theorem agrees_of_met (here : S a) (meets : Meets Means a link)
    (isLink : Link look Valid link target) : Agrees look Means link := by
  obtain ⟨before, name, behind, h, rfl, means, rfl⟩ := meets
  have upTo : S (before ++ [name]) := closed.front (append_cons before name behind ▸ here)
  obtain ⟨n, walked⟩ := meaning.exists_after_of_agrees (agrees _ (closed.front here)) means [name]
  obtain ⟨done, name', split, hard⟩ := isLink.place
  obtain ⟨rfl, rfl⟩ : h = done ∧ name = name' := by simpa using split
  have along := after_hard (show Hard look ([] ++ h) from hard) [name]
  have on : ∀ r, Returns (turn look) ([], before ++ [name]) r ↔
      Returns (turn look) ([], h ++ [name]) r := fun r =>
    (returns_iff_of_after walked).trans (returns_iff_of_after along).symm
  have same := meaning.append means [name]
  rcases agrees _ upTo with ⟨r, means', returns⟩ | ⟨nothing, error, failed⟩
  · exact .inl ⟨r, (same r).mp means', (on _).mp returns⟩
  · exact .inr ⟨fun ⟨r, means'⟩ => nothing ⟨r, (same r).mpr means'⟩, error, (on _).mp failed⟩

/-- The walk from a link that is met ends, so there is no endless chain behind it; by induction on
the number of turns. -/
theorem acc_of_after (n : ℕ) : ∀ a done name, S a → Meets Means a (done ++ [name]) →
    after (turn look) n (done, [name]) = .inr r →
      Acc (MetBehind look Valid Means) (done ++ [name]) := by
  induction n using Nat.strongRecOn generalizing r with
  | _ n ih =>
    intro a done name here meets ended
    refine ⟨_, fun link' => ?_⟩
    rintro ⟨target, target', isLink, isLink', meets'⟩
    have along := closed.target here meets isLink
    have again := meets'
    obtain ⟨before, name', behind, h, rfl, means, rfl⟩ := meets'
    -- the walk along the target comes to the link that is met
    obtain ⟨k, passed⟩ :=
      meaning.exists_after_of_agrees (agrees _ (closed.front along)) means (name' :: behind)
    have turned : after (turn look) 1 (done, [name]) = .inl ([], before ++ name' :: behind) := by
      rw [after_one, turn_link isLink.leads, append_nil]
    have walked : after (turn look) (1 + k) (done, [name]) = .inl (h, name' :: behind) := by
      rw [after_add_inl turned, passed]
    have le : 1 + k ≤ n := by
      by_contra lt
      have later := after_le_inr ended (Nat.le_of_not_le lt)
      rw [walked] at later
      cases later
    obtain ⟨m, rfl⟩ := Nat.exists_eq_add_of_le le
    rw [after_add_inl walked] at ended
    obtain ⟨r', ended'⟩ : ∃ r', after (turn look) m (h, [name']) = .inr r' :=
      exists_of_append (show after (turn look) m (h, [name'] ++ behind) = .inr _ from ended)
    exact ih m (by omega) _ h name' along again ended'

theorem acc_of_met (here : S a) (meets : Meets Means a link)
    (isLink : Link look Valid link target) : Acc (MetBehind look Valid Means) link := by
  have agreesLink := meaning.agrees_of_met closed agrees here meets isLink
  obtain ⟨done, name, rfl, hard⟩ := isLink.place
  have walked := after_hard (show Hard look ([] ++ done) from hard) [name]
  obtain ⟨r, n, ended⟩ : ∃ r, Returns (turn look) (done, [name]) r := by
    rcases agreesLink with ⟨h, -, returns⟩ | ⟨-, error, failed⟩
    · exact ⟨_, (returns_iff_of_after walked).mp returns⟩
    · exact ⟨_, (returns_iff_of_after walked).mp failed⟩
  exact meaning.acc_of_after closed agrees n a done name here meets ended

end

/-- **When walks agree with the meaning**: exactly if the target of each link that is met means what
the link means, and following links along the targets of links comes to an end. -/
theorem agree_iff (closed : Closed look Valid Means S) :
    (∀ a, S a → Agrees look Means a) ↔
      ∀ a link target, S a → Meets Means a link → Link look Valid link target →
        (∀ r, Means target r ↔ Means link r) ∧ Acc (MetBehind look Valid Means) link := by
  constructor
  · intro agrees a link target here meets isLink
    have agreesTarget := agrees target (closed.target here meets isLink)
    refine ⟨?_, meaning.acc_of_met closed agrees here meets isLink⟩
    exact meaning.means_iff_of_agrees isLink
      (meaning.agrees_of_met closed agrees here meets isLink) agreesTarget
  intro links
  have agreesTarget : ∀ link, Acc (MetBehind look Valid Means) link →
      ∀ a target, S a → Meets Means a link → Link look Valid link target →
        Agrees look Means target ∧ ∀ h, Means target h → ∀ name ∈ h, Valid name := by
    intro link acc
    induction acc with
    | intro link _ ih =>
      intro a target here meets isLink
      have along := closed.target here meets isLink
      refine meaning.agrees_of_meets (closed.valid along) fun link' target' isLink' meets' => ?_
      exact ⟨ih link' ⟨target, target', isLink, isLink',
        meets'⟩ target target' along meets' isLink',
        (links target link' target' along meets' isLink').1⟩
  intro a here
  refine (meaning.agrees_of_meets (closed.valid here) fun link target isLink meets => ?_).1
  obtain ⟨same, acc⟩ := links a link target here meets isLink
  exact ⟨agreesTarget link acc a target here meets isLink, same⟩

end Meaning

end IoJs.Library.Place
