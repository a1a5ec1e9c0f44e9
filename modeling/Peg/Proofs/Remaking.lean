import Mathlib.Data.List.Nodup
import Peg.Proofs.Copies
import Peg.Proofs.Sessions

/-!
# Grammars made again

A construction may be carried out twice, and draws other numbers the second time.  What it makes
then is the same but for the grammars made on the way, which stand for those made the first time.
`Remade` lists these pairs, and `Value.toPattern_remakes` finds them.

A grammar is defined rule by rule, and a `Slot` keeps the numbers that were drawn for one of them.
By `Grammar.define_remake` a grammar that is defined again stands for the first one, if the slots of
the first one are found again among those of the second one.
-/

namespace Peg

variable {old : Grammar → Prop} {n m n' m' : Nat} {p p' : Pattern} {g g' : Grammar}

/-! ### Pairs of grammars -/

/-- A number is drawn from `n` on, and below `m`. -/
def Drawn (n m k : Nat) : Prop :=
  n ≤ k ∧ k < m

/-- Grammars stand for one another when they are a pair, or else old ones stand for themselves. -/
def StandsFor (old : Grammar → Prop) (made : List (Grammar × Grammar)) (g g' : Grammar) : Prop :=
  (g, g') ∈ made ∨ (old g ∧ g = g')

/-- The grammars that a construction makes when it is carried out twice, in pairs: those made the
first time draw numbers of `D` and those made the second time numbers of `D'`, each a number of its
own, and they stand for one another. -/
structure Remade (old : Grammar → Prop) (D D' : Nat → Prop) (made : List (Grammar × Grammar)) :
    Prop where
  first : ∀ c ∈ made, D c.1.ident
  second : ∀ c ∈ made, D' c.2.ident
  nodup_first : (made.map fun c => c.1.ident).Nodup
  nodup_second : (made.map fun c => c.2.ident).Nodup
  copy : ∀ c ∈ made, c.1.Copy (StandsFor old made) c.2

theorem StandsFor.mono {made made' : List (Grammar × Grammar)} (h : made ⊆ made') (g g' : Grammar)
    (hg : StandsFor old made g g') :
  StandsFor old made' g g'
  := by
  rcases hg with hg | hg
  · exact .inl (h hg)
  · exact .inr hg

namespace Remade

variable {D D' E E' : Nat → Prop} {made made' : List (Grammar × Grammar)}

theorem nil :
  Remade old D D' []
  := by
  constructor <;> simp

theorem mono (hD : ∀ k, D k → E k) (hD' : ∀ k, D' k → E' k) (h : Remade old D D' made) :
  Remade old E E' made
  := by
  constructor
  · exact fun c hc => hD _ (h.first c hc)
  · exact fun c hc => hD' _ (h.second c hc)
  · apply h.nodup_first
  · apply h.nodup_second
  · apply h.copy

/-- Pairs with numbers apart from each other are put together. -/
theorem append (h : Remade old D D' made) (h' : Remade old E E' made') (hD : ∀ k, D k → ¬ E k)
    (hD' : ∀ k, D' k → ¬ E' k) :
  Remade old (fun k => D k ∨ E k) (fun k => D' k ∨ E' k) (made ++ made')
  := by
  constructor
  · intro c hc
    exact (List.mem_append.1 hc).imp (h.first c) (h'.first c)
  · intro c hc
    exact (List.mem_append.1 hc).imp (h.second c) (h'.second c)
  · rw [List.map_append, List.nodup_append]
    refine ⟨h.nodup_first, h'.nodup_first, ?_⟩
    simp only [List.forall_mem_map]
    exact fun c hc d hd heq => hD _ (h.first c hc) (heq ▸ h'.first d hd)
  · rw [List.map_append, List.nodup_append]
    refine ⟨h.nodup_second, h'.nodup_second, ?_⟩
    simp only [List.forall_mem_map]
    exact fun c hc d hd heq => hD' _ (h.second c hc) (heq ▸ h'.second d hd)
  · intro c hc
    rcases List.mem_append.1 hc with hc | hc
    · exact (h.copy c hc).mono (StandsFor.mono (List.subset_append_left _ _))
    · exact (h'.copy c hc).mono (StandsFor.mono (List.subset_append_right _ _))

/-- Two grammars are added that stand for one another when they are a pair. -/
theorem cons (h : Remade old D D' made) (hg : ¬ D g.ident) (hg' : ¬ D' g'.ident)
    (hcopy : g.Copy (StandsFor old ((g, g') :: made)) g') :
  Remade old (fun k => k = g.ident ∨ D k) (fun k => k = g'.ident ∨ D' k) ((g, g') :: made)
  := by
  constructor
  · intro c hc
    rcases List.mem_cons.1 hc with rfl | hc
    · exact .inl rfl
    · exact .inr (h.first c hc)
  · intro c hc
    rcases List.mem_cons.1 hc with rfl | hc
    · exact .inl rfl
    · exact .inr (h.second c hc)
  · rw [List.map_cons, List.nodup_cons, List.mem_map]
    refine ⟨?_, h.nodup_first⟩
    rintro ⟨c, hc, heq⟩
    exact hg (heq ▸ h.first c hc)
  · rw [List.map_cons, List.nodup_cons, List.mem_map]
    refine ⟨?_, h.nodup_second⟩
    rintro ⟨c, hc, heq⟩
    exact hg' (heq ▸ h.second c hc)
  · intro c hc
    rcases List.mem_cons.1 hc with rfl | hc
    · apply hcopy
    · exact (h.copy c hc).mono (StandsFor.mono (List.subset_cons_self _ _))

/-- Of two pairs the first grammars are the same exactly if the second ones are. -/
theorem eq_iff (h : Remade old D D' made) {c d : Grammar × Grammar} (hc : c ∈ made)
    (hd : d ∈ made) :
  c.1 = d.1 ↔ c.2 = d.2
  := by
  constructor
  · intro heq
    rw [List.inj_on_of_nodup_map h.nodup_first hc hd (congrArg Grammar.ident heq)]
  · intro heq
    rw [List.inj_on_of_nodup_map h.nodup_second hc hd (congrArg Grammar.ident heq)]

/-- The pairs stand for one another in matches, next to old grammars that draw none of the
numbers. -/
def copies (h : Remade old D D' made) (hclosed : ∀ g, old g → ∀ k ∈ g.grammars, old k)
    (hold : ∀ g, old g → ¬ D g.ident ∧ ¬ D' g.ident) : Copies where
  rel := StandsFor old made
  copy := by
    rintro g g' (hg | ⟨hg, rfl⟩)
    · apply h.copy _ hg
    · apply Grammar.copy_self
      exact fun k hk => .inr ⟨hclosed g hg k hk, rfl⟩
  eq_iff := by
    rintro g g' k k' (hg | ⟨hg, rfl⟩) (hk | ⟨hk, rfl⟩)
    · apply h.eq_iff hg hk
    · constructor
      · rintro rfl
        cases (hold _ hk).1 (h.first _ hg)
      · rintro rfl
        cases (hold _ hk).2 (h.second _ hg)
    · constructor
      · rintro rfl
        cases (hold _ hg).1 (h.first _ hk)
      · rintro rfl
        cases (hold _ hg).2 (h.second _ hk)
    · rfl

end Remade

/-- A construction, carried out twice, makes the same pattern but for the grammars made on the
way. -/
structure Build.Remakes (old : Grammar → Prop) (x : Build Pattern) : Prop where
  remade : ∀ {n n' m m' : Nat} {p p' : Pattern}, x n = .ok p m → x n' = .ok p' m' →
    n ≤ m ∧ n' ≤ m' ∧ ∃ made, Remade old (Drawn n m) (Drawn n' m') made
      ∧ p.Copied (StandsFor old made) p'

namespace Build.Remakes

theorem pure (h : ∀ g ∈ p.grammars, old g) :
  Remakes old (Pure.pure p)
  := by
  constructor
  intro n n' m m' q q' hq hq'
  cases hq
  cases hq'
  exact ⟨Nat.le_refl _, Nat.le_refl _, [], .nil, .same fun g hg => .inr ⟨h g hg, rfl⟩⟩

theorem throw (e : Error) :
  Remakes old (MonadExcept.throw e)
  := by
  constructor
  intro n n' m m' q q' hq
  cases hq

end Build.Remakes

open Build (Remakes)

/-! ### Rules -/

/-- An offer that was taken up: the rule that it defines, and the numbers drawn for the body. -/
structure Slot where
  offer : Offer
  name : String
  body : Pattern
  start : Nat
  stop : Nat
  key_eq : offer.key = .text name
  made : offer.pattern start = .ok body stop

namespace Slot

/-- The rule of a slot. -/
def rule (s : Slot) : String × Pattern :=
  (s.name, s.body)

/-- Two slots draw no number in common. -/
def Apart (s t : Slot) : Prop :=
  ∀ k, Drawn s.start s.stop k → ¬ Drawn t.start t.stop k

theorem Apart.symm {s t : Slot} (h : s.Apart t) :
  t.Apart s
  := fun k hk hk' => h k hk' hk

/-- One of some slots draws a number. -/
def AnyDrawn (slots : List Slot) (k : Nat) : Prop :=
  ∃ s ∈ slots, Drawn s.start s.stop k

end Slot

theorem Offer.pattern_eq_ok {o : Offer} {rule : String} (h : o.patternFor rule n = .ok p m) :
  o.pattern n = .ok p m
  := by
  simp only [patternFor, Build.mapError] at h
  cases hx : o.pattern n with
  | ok q k =>
    rw [hx] at h
    cases h
    rfl
  | error e k => simp [hx] at h

/-- Rules are made one after the other of the offers, if these draw numbers one after the other. -/
theorem Grammar.rulesOf_eq_ok {offers : List Offer} {rules : List (String × Pattern)}
    (hup : ∀ o ∈ offers, ∀ {n p m}, o.pattern n = .ok p m → n ≤ m)
    (h : rulesOf offers n = .ok rules m) :
  n ≤ m ∧ ∃ slots : List Slot, slots.map Slot.offer = offers ∧ rules = slots.map Slot.rule
    ∧ (∀ k, Slot.AnyDrawn slots k → Drawn n m k) ∧ slots.Pairwise Slot.Apart
  := by
  induction offers generalizing n rules with
  | nil =>
    cases h
    exact ⟨Nat.le_refl _, [], rfl, rfl, by simp [Slot.AnyDrawn], .nil⟩
  | cons o offers ih =>
    obtain ⟨name, l, hname, h⟩ := Build.bind_eq_ok h
    rcases o.ruleName_cases with ⟨name', hkey, -, hruleName⟩ | ⟨fault, hruleName⟩
    · rw [hruleName] at hname
      cases hname
      obtain ⟨body, stop, hbody, h⟩ := Build.bind_eq_ok h
      obtain ⟨rules', l, hrules, h⟩ := Build.bind_eq_ok h
      cases h
      have hmade := o.pattern_eq_ok hbody
      have hstop := hup o List.mem_cons_self hmade
      obtain ⟨hle, slots, rfl, rfl, hdrawn, hapart⟩ :=
        ih (fun o ho => hup o (List.mem_cons_of_mem _ ho)) hrules
      refine ⟨Nat.le_trans hstop hle, ⟨o, name, body, n, stop, hkey, hmade⟩ :: slots, rfl, rfl,
        ?_, ?_⟩
      · rintro k ⟨s, hs, hk⟩
        rcases List.mem_cons.1 hs with rfl | hs
        · exact ⟨hk.1, Nat.lt_of_lt_of_le hk.2 hle⟩
        · obtain ⟨hk₁, hk₂⟩ := hdrawn k ⟨s, hs, hk⟩
          exact ⟨Nat.le_trans hstop hk₁, hk₂⟩
      · refine .cons ?_ hapart
        intro s hs k hk hk'
        exact Nat.not_le_of_lt hk.2 (hdrawn k ⟨s, hs, hk'⟩).1
    · rw [hruleName] at hname
      cases hname

/-- Rules of the same names, with bodies of which the second ones are copies. -/
def RulesCopied (rel : Grammar → Grammar → Prop) (rules rules' : List (String × Pattern)) : Prop :=
  List.Forall₂ (fun r r' => r.1 = r'.1 ∧ r.2.Copied rel r'.2) rules rules'

theorem RulesCopied.mono {rel rel' : Grammar → Grammar → Prop}
    {rules rules' : List (String × Pattern)} (hrel : ∀ g g', rel g g' → rel' g g')
    (h : RulesCopied rel rules rules') :
  RulesCopied rel' rules rules'
  := h.imp fun _ _ hr => ⟨hr.1, hr.2.mono hrel⟩

theorem RulesCopied.lookup {rel : Grammar → Grammar → Prop}
    {rules rules' : List (String × Pattern)} (h : RulesCopied rel rules rules') (name : String) :
  Option.Rel (Pattern.Copied rel) (rules.lookup name) (rules'.lookup name)
  := by
  induction h with
  | nil => apply Option.Rel.none
  | @cons r r' rules rules' hr _ ih =>
    obtain ⟨s, p⟩ := r
    obtain ⟨s', p'⟩ := r'
    obtain ⟨rfl, hp⟩ := hr
    simp only [List.lookup_cons]
    split
    · apply Option.Rel.some hp
    · apply ih

theorem Slot.name_eq {s s' : Slot} (h : s.offer = s'.offer) :
  s.name = s'.name
  := by
  have hkey : Value.text s.name = .text s'.name := by rw [← s.key_eq, h, s'.key_eq]
  simpa using hkey

/-- The first rule has the same name when the first offer is the same. -/
theorem Slot.head?_name {slots slots' : List Slot}
    (h : (slots.map offer).head? = (slots'.map offer).head?) :
  (slots.map rule).head?.map Prod.fst = (slots'.map rule).head?.map Prod.fst
  := by
  cases slots with
  | nil =>
    cases slots' with
    | nil => rfl
    | cons s' slots' => cases h
  | cons s slots =>
    cases slots' with
    | nil => cases h
    | cons s' slots' =>
      have hs : s.offer = s'.offer := by simpa using h
      simpa [rule] using name_eq hs

/-- The slots of the same offers make the same rules but for the grammars made on the way. -/
theorem Slot.remake {slots aligned : List Slot}
    (h : List.Forall₂ (fun s s' => s.offer = s'.offer) slots aligned)
    (hremakes : ∀ s ∈ slots, Remakes old s.offer.pattern) (hapart : slots.Pairwise Apart)
    (hapart' : aligned.Pairwise Apart) :
  ∃ made, Remade old (AnyDrawn slots) (AnyDrawn aligned) made
    ∧ RulesCopied (StandsFor old made) (slots.map rule) (aligned.map rule)
  := by
  induction h with
  | nil => exact ⟨[], .nil, .nil⟩
  | @cons s s' slots aligned hs _ ih =>
    obtain ⟨hfirst, hrest⟩ := List.pairwise_cons.1 hapart
    obtain ⟨hfirst', hrest'⟩ := List.pairwise_cons.1 hapart'
    obtain ⟨made', hmade', hrules⟩ :=
      ih (fun t ht => hremakes t (List.mem_cons_of_mem _ ht)) hrest hrest'
    have hagain : s.offer.pattern s'.start = .ok s'.body s'.stop := by
      rw [hs]
      apply s'.made
    obtain ⟨-, -, made, hmade, hbody⟩ := (hremakes s List.mem_cons_self).remade s.made hagain
    use made ++ made'
    constructor
    · apply (hmade.append hmade' _ _).mono
      · rintro k (hk | ⟨t, ht, hk⟩)
        · exact ⟨s, List.mem_cons_self, hk⟩
        · exact ⟨t, List.mem_cons_of_mem _ ht, hk⟩
      · rintro k (hk | ⟨t, ht, hk⟩)
        · exact ⟨s', List.mem_cons_self, hk⟩
        · exact ⟨t, List.mem_cons_of_mem _ ht, hk⟩
      · rintro k hk ⟨t, ht, hk'⟩
        apply hfirst t ht k hk hk'
      · rintro k hk ⟨t, ht, hk'⟩
        apply hfirst' t ht k hk hk'
    · have hbody' := hbody.mono (StandsFor.mono (List.subset_append_left made made'))
      have hrules' := hrules.mono (StandsFor.mono (List.subset_append_right made made'))
      exact .cons ⟨name_eq hs, hbody'⟩ hrules'

/-! ### Grammars -/

/-- Roots that are the same rule, or patterns of which the second one is a copy. -/
inductive Root.Again (rel : Grammar → Grammar → Prop) : Root → Root → Prop where
  | rule (name : String) : Again rel (.rule name) (.rule name)
  | inline {p p' : Pattern} : p.Copied rel p' → Again rel (.inline p) (.inline p')

theorem Root.Again.mono {rel rel' : Grammar → Grammar → Prop} {r r' : Root}
    (hrel : ∀ g g', rel g g' → rel' g g') (h : r.Again rel r') :
  r.Again rel' r'
  := by
  cases h with
  | rule name => exact .rule name
  | inline hp => exact .inline (hp.mono hrel)

/-- A grammar without undefined references is copied when it starts again with copies of the bodies
of its rules. -/
theorem Grammar.copy_of_resolves {rel : Grammar → Grammar → Prop} (hresolves : g.Resolves)
    (hroot : g.root.Again rel g'.root)
    (hserves : ∀ name, (g.rule? name).isSome = true → g.Serves rel name g') :
  g.Copy rel g'
  := by
  have hserved : ∀ p : Pattern, p.ResolvesIn (some g) → p.ServedIn rel (some g) (some g') := by
    intro p hp name hname
    obtain ⟨k, hk, hrule⟩ := hp name hname
    cases hk
    exact .some (hserves name hrule)
  constructor
  · have hname := hresolves.name
    have hinline := hresolves.root
    generalize g.root = r, g'.root = r' at hroot hname hinline ⊢
    cases hroot with
    | rule name => exact .rule (hserves name (hname name rfl))
    | inline hp => exact .inline hp (hserved _ (hinline _ rfl))
  · intro name body hbody
    apply hserved
    apply hresolves.rules _ (mem_rules_of_rule? hbody)

/-- A root that is given makes a pattern when it is not the name of a rule. -/
theorem Grammar.rootOf_pattern {r : String × Pattern} {rules : List (String × Pattern)} {o : Offer}
    (h : ¬ ∃ name, o.body = .text name) :
  rootOf (r :: rules) (some o) = (do
    let p ← o.patternFor "0"
    return .inline p)
  := by
  simp only [rootOf]
  split
  · next name hname => cases h ⟨name, hname⟩
  · rfl

/-- The same root is found again, if it is given or else the first rule has the same name. -/
theorem Grammar.rootOf_remake {rules rules' : List (String × Pattern)} {root : Option Offer}
    {r r' : Root}
    (hfirst : root = none → rules.head?.map Prod.fst = rules'.head?.map Prod.fst)
    (hremakes : ∀ o ∈ root, Remakes old o.pattern) (h : rootOf rules root n = .ok r m)
    (h' : rootOf rules' root n' = .ok r' m') :
  n ≤ m ∧ n' ≤ m' ∧ ∃ made, Remade old (Drawn n m) (Drawn n' m') made
    ∧ r.Again (StandsFor old made) r'
  := by
  cases rules with
  | nil => cases h
  | cons first rules =>
    cases rules' with
    | nil => cases h'
    | cons first' rules' =>
      cases root with
      | none =>
        cases h
        cases h'
        have hname : first.1 = first'.1 := by simpa using hfirst rfl
        rw [← hname]
        exact ⟨Nat.le_refl _, Nat.le_refl _, [], .nil, .rule _⟩
      | some o =>
        by_cases htext : ∃ name, o.body = .text name
        · obtain ⟨name, hname⟩ := htext
          simp only [rootOf, hname] at h h'
          split at h
          · split at h'
            · cases h
              cases h'
              exact ⟨Nat.le_refl _, Nat.le_refl _, [], .nil, .rule _⟩
            · cases h'
          · cases h
        · rw [rootOf_pattern htext] at h h'
          obtain ⟨p, l, hp, h⟩ := Build.bind_eq_ok h
          obtain ⟨p', l', hp', h'⟩ := Build.bind_eq_ok h'
          cases h
          cases h'
          obtain ⟨hle, hle', made, hmade, hcopied⟩ :=
            (hremakes o rfl).remade (o.pattern_eq_ok hp) (o.pattern_eq_ok hp')
          exact ⟨hle, hle', made, hmade, .inline hcopied⟩

/-- A root that is the name of a rule names one that is there. -/
theorem Grammar.lookup_of_rootOf {rules : List (String × Pattern)} {root : Option Offer}
    {name : String} (h : rootOf rules root n = .ok (.rule name) m) :
  (rules.lookup name).isSome = true
  := by
  cases rules with
  | nil => cases h
  | cons first rules =>
    cases root with
    | none =>
      cases h
      simp
    | some o =>
      by_cases htext : ∃ name, o.body = .text name
      · obtain ⟨name', hname⟩ := htext
        simp only [rootOf, hname] at h
        split at h
        · next hrule =>
          cases h
          apply hrule
        · cases h
      · rw [rootOf_pattern htext] at h
        obtain ⟨p, l, -, h⟩ := Build.bind_eq_ok h
        cases h

/-- A definition that succeeds makes the rules and the root, and then draws a number for a grammar
in which all references resolve. -/
theorem Grammar.define_eq_ok {offers : List Offer} {root : Option Offer}
    (h : define offers root n = .ok g m) :
  ∃ l, rulesOf offers n = .ok g.rules l ∧ rootOf g.rules root l = .ok g.root g.ident
    ∧ g.Resolves ∧ m = g.ident + 1
  := by
  obtain ⟨rules, l, hrules, h⟩ := Build.bind_eq_ok h
  obtain ⟨r, ident, hroot, h⟩ := Build.bind_eq_ok h
  cases hundefined : undefined? rules r with
  | some missing =>
    rw [hundefined] at h
    cases h
  | none =>
    rw [hundefined] at h
    cases h
    refine ⟨l, hrules, hroot, resolves_of_undefined? hundefined ?_, rfl⟩
    rintro name rfl
    apply lookup_of_rootOf hroot

/-- The slots of offers are found again among those of others, and the names of their rules are not
taken by the rest. -/
def Slot.FoundAgain (offers offers' : List Offer) : Prop :=
  ∀ slots slots' : List Slot, slots.map offer = offers → slots'.map offer = offers' →
    ∃ aligned rest, slots'.Perm (aligned ++ rest)
      ∧ List.Forall₂ (fun s s' => s.offer = s'.offer) slots aligned
      ∧ ∀ name, ((slots.map rule).lookup name).isSome = true →
        (slots'.map rule).lookup name = (aligned.map rule).lookup name

/-- Slots of the same offers are found again one by one. -/
theorem Slot.foundAgain_same (offers : List Offer) :
  FoundAgain offers offers
  := by
  intro slots slots' hslots hslots'
  have hmap : List.Forall₂ Eq (slots.map offer) (slots'.map offer) := by
    rw [List.forall₂_eq_eq_eq, hslots, hslots']
  rw [List.forall₂_map_left_iff, List.forall₂_map_right_iff] at hmap
  exact ⟨slots', [], by simp, hmap, fun _ _ => rfl⟩

/-- A grammar that is defined again stands for the first one, as far as the rules of that go, when
the slots of these are found again and the root is the same. -/
theorem Grammar.define_remake {offers offers' : List Offer} {root : Option Offer}
    (h : define offers root n = .ok g m) (h' : define offers' root n' = .ok g' m')
    (hfound : Slot.FoundAgain offers offers') (hfirst : root = none → offers.head? = offers'.head?)
    (hup : ∀ o ∈ offers', ∀ {n p m}, o.pattern n = .ok p m → n ≤ m)
    (hremakes : ∀ o ∈ offers, Remakes old o.pattern)
    (hrootRemakes : ∀ o ∈ root, Remakes old o.pattern) :
  n ≤ m ∧ n' ≤ m' ∧ ∃ made, Remade old (Drawn n m) (Drawn n' m') ((g, g') :: made)
    ∧ ∀ name, (g.rule? name).isSome = true →
      g.Serves (StandsFor old ((g, g') :: made)) name g'
  := by
  obtain ⟨l, hrules, hroot, hresolves, rfl⟩ := define_eq_ok h
  obtain ⟨l', hrules', hroot', -, rfl⟩ := define_eq_ok h'
  obtain ⟨hle, slots, hslots, hrulesEq, hdrawn, hapart⟩ :=
    rulesOf_eq_ok (fun o ho _ _ _ hp => ((hremakes o ho).remade hp hp).1) hrules
  obtain ⟨hle', slots', hslots', hrulesEq', hdrawn', hapart'⟩ := rulesOf_eq_ok hup hrules'
  obtain ⟨aligned, rest, hperm, hforall, hlookup⟩ := hfound slots slots' hslots hslots'
  have hapart'' : (aligned ++ rest).Pairwise Slot.Apart :=
    (hperm.pairwise_iff fun h => h.symm).1 hapart'
  have hremakes' : ∀ s ∈ slots, Remakes old s.offer.pattern := by
    intro s hs
    apply hremakes
    rw [← hslots]
    apply List.mem_map_of_mem hs
  obtain ⟨made₁, hmade₁, hcopied⟩ :=
    Slot.remake hforall hremakes' hapart (List.pairwise_append.1 hapart'').1
  have hfirst' : root = none → g.rules.head?.map Prod.fst = g'.rules.head?.map Prod.fst := by
    intro hnone
    rw [hrulesEq, hrulesEq']
    apply Slot.head?_name
    rw [hslots, hslots', hfirst hnone]
  obtain ⟨hle₁, hle₁', made₂, hmade₂, hagain⟩ := rootOf_remake hfirst' hrootRemakes hroot hroot'
  have halignedDrawn : ∀ k, Slot.AnyDrawn aligned k → Drawn n' l' k := by
    rintro k ⟨s, hs, hk⟩
    exact hdrawn' k ⟨s, hperm.mem_iff.2 (List.mem_append_left _ hs), hk⟩
  -- the numbers of the rules lie below those of the root, and that of the grammar above both
  have hmade := (hmade₁.mono hdrawn halignedDrawn).append hmade₂
    (fun k hk hk' => Nat.not_le_of_lt hk.2 hk'.1) (fun k hk hk' => Nat.not_le_of_lt hk.2 hk'.1)
  have hserves : ∀ name, (g.rule? name).isSome = true →
      g.Serves (StandsFor old ((g, g') :: (made₁ ++ made₂))) name g' := by
    intro name hname
    use .inl List.mem_cons_self
    rw [rule?, hrulesEq] at hname ⊢
    rw [rule?, hrulesEq', hlookup name hname]
    apply RulesCopied.lookup
    apply hcopied.mono
    apply StandsFor.mono
    exact fun c hc => List.mem_cons_of_mem _ (List.mem_append_left _ hc)
  have hagain' : g.root.Again (StandsFor old ((g, g') :: (made₁ ++ made₂))) g'.root := by
    apply hagain.mono
    apply StandsFor.mono
    exact fun c hc => List.mem_cons_of_mem _ (List.mem_append_right _ hc)
  refine ⟨by omega, by omega, made₁ ++ made₂, ?_, hserves⟩
  apply (hmade.cons _ _ (copy_of_resolves hresolves hagain' hserves)).mono
  · rintro k (rfl | hk | hk) <;> simp only [Drawn] at * <;> omega
  · rintro k (rfl | hk | hk) <;> simp only [Drawn] at * <;> omega
  · simp only [Drawn]
    omega
  · simp only [Drawn]
    omega

/-! ### Patterns from values -/

mutual

/-- The grammars that the pattern for which a value stands can come to, apart from those made for
it. -/
def Value.grammars : Value → List Grammar
  | .pattern p => p.grammars
  | .dict es => Value.grammarsOfEntries es
  | _ => []
termination_by structural v => v

/-- The grammars that the patterns for the bodies of rules can come to. -/
def Value.grammarsOfEntries : List (Value × Value) → List Grammar
  | [] => []
  | (_, v) :: es => v.grammars ++ Value.grammarsOfEntries es
termination_by structural es => es

end

/-- The grammar of a dictionary is made again. -/
theorem Grammar.ofOffers_remakes {offers : List Offer}
    (h : ∀ o ∈ offers, Remakes old o.pattern) :
  Remakes old (do
    let g ← ofOffers offers
    return .grammar g)
  := by
  constructor
  intro n n' m m' p p' hp hp'
  obtain ⟨g, l, hg, hp⟩ := Build.bind_eq_ok hp
  obtain ⟨g', l', hg', hp'⟩ := Build.bind_eq_ok hp'
  cases hp
  cases hp'
  have hrules : ∀ o ∈ offers.filter fun o => !o.isRoot, Remakes old o.pattern :=
    fun o ho => h o (List.mem_of_mem_filter ho)
  have hroot : ∀ o ∈ (offers.filter Offer.isRoot).getLast?.bind rootOffer?,
      Remakes old o.pattern := by
    intro o ho
    obtain ⟨o', ho', hroot⟩ := Option.bind_eq_some_iff.1 ho
    rw [mem_rootOffer? hroot]
    apply h o' (List.mem_of_mem_filter (List.mem_of_getLast? ho'))
  obtain ⟨hle, hle', made, hmade, -⟩ := define_remake hg hg' (Slot.foundAgain_same _)
    (fun _ => rfl) (fun o ho _ _ _ hp => ((hrules o ho).remade hp hp).1) hrules hroot
  exact ⟨hle, hle', _, hmade, .grammar (.inl List.mem_cons_self)⟩

theorem Scalar.toPattern_remakes (s : Scalar) :
  Remakes old s.toPattern
  := by
  unfold toPattern
  split
  · apply Remakes.pure (by simp [Pattern.grammars])
  · apply Remakes.pure (by simp [Pattern.grammars])
  · apply Remakes.pure (by simp [Pattern.grammars])
  · apply Remakes.pure (by simp [Pattern.grammars])
  · apply Remakes.throw

mutual

/-- A value stands for the same pattern again, but for the grammars made for it. -/
theorem Value.toPattern_remakes :
    ∀ v : Value, (∀ g ∈ v.grammars, old g) → Remakes old v.toPattern
  | .pattern _, h => Remakes.pure h
  | .scalar s, _ => s.toPattern_remakes
  | .dict es, h => Grammar.ofOffers_remakes (Value.offers_remake es h)
  | .list _, _ => Remakes.throw _
  | .tuple _, _ => Remakes.throw _
  | .table _ _, _ => Remakes.throw _
  | .grammar _, _ => Remakes.throw _

theorem Value.offers_remake :
    ∀ es : List (Value × Value), (∀ g ∈ Value.grammarsOfEntries es, old g) →
      ∀ o ∈ Value.offers es, Remakes old o.pattern
  | [], _ => by simp [Value.offers]
  | (_, v) :: es, h => List.forall_mem_cons.2
    ⟨Value.toPattern_remakes v fun g hg => h g (List.mem_append_left _ hg),
      Value.offers_remake es fun g hg => h g (List.mem_append_right _ hg)⟩

end

/-- Constructions draw numbers upwards. -/
theorem Value.toPattern_le {v : Value} (h : v.toPattern n = .ok p m) :
  n ≤ m
  := ((v.toPattern_rises n).made m p h).1

theorem Value.offers_eq_map (es : List (Value × Value)) :
  Value.offers es = es.map fun e => ⟨e.1, e.2, e.2.toPattern⟩
  := by
  induction es with
  | nil => rfl
  | cons e es ih => rw [Value.offers, ih, List.map_cons]

mutual

theorem Value.grammars_closed : ∀ v : Value, Grammar.Closed v.grammars
  | .pattern p => p.grammars_closed
  | .dict es => Value.grammarsOfEntries_closed es
  | .scalar _ => Grammar.closed_nil
  | .list _ => Grammar.closed_nil
  | .tuple _ => Grammar.closed_nil
  | .table _ _ => Grammar.closed_nil
  | .grammar _ => Grammar.closed_nil

theorem Value.grammarsOfEntries_closed :
    ∀ es : List (Value × Value), Grammar.Closed (Value.grammarsOfEntries es)
  | [] => Grammar.closed_nil
  | (_, v) :: es =>
    Grammar.closed_append (Value.grammars_closed v) (Value.grammarsOfEntries_closed es)

end

end Peg
