import ByteLexer.Proofs.Redirection

/-!
# The languages of the constructions

Each way of making an automaton is an operation on languages. Appending is a product and repetition
a Kleene star, because what is sent on splits at the accepting nodes; the optional automaton and the
chain of a text are read off their nodes.
-/

namespace ByteLexer.Automaton

open scoped Computability

variable {a b g : Automaton} {node : Node} {id i k : Nat} {u v w : List UInt8}

lemma embeds_absorb_left (a b : Automaton) : a.Embeds (a.absorb b) 0 := by
  intro id node hn
  rw [shift_zero]
  exact (Array.getElem?_append_left (lt_of_getElem? hn)).trans hn

lemma embeds_absorb_right (a b : Automaton) : b.Embeds (a.absorb b) a.size := by
  intro id node hn
  have hle : a.nodes.size ≤ id + a.size := Nat.le_add_left _ _
  change (a.nodes ++ b.nodes.map (·.shift a.size))[id + a.size]? = _
  rw [Array.getElem?_append_right hle, Array.getElem?_map]
  simp [size, hn]

lemma embeds_pushRoot (a : Automaton) (node : Node) : a.Embeds (a.pushRoot node) 0 := by
  intro id n hn
  have hid : id < a.nodes.size := lt_of_getElem? hn
  rw [shift_zero, ← hn, Array.getElem?_eq_getElem hid]
  exact Array.getElem?_push_lt hid

lemma getElem?_pushRoot (a : Automaton) (node : Node) :
    (a.pushRoot node).nodes[a.size]? = some node :=
  Array.getElem?_push_size

lemma root_redirectAll (a : Automaton) (target : Nat) (accept : Bool) (ids : List Nat) :
    (a.redirectAll target accept ids).root = a.root := by
  unfold redirectAll
  induction ids generalizing a with
  | nil => rfl
  | cons id ids ih => rw [List.foldl_cons, ih, root_redirect]

theorem language_empty : empty.language = 0 := language_eq_zero rfl

lemma rerouted_append (a b : Automaton) (target : Nat) :
    Rerouted a ((a.absorb b).redirectAll target false a.acceptNodes) target false :=
  rerouted_redirectAll (embeds_absorb_left a b) (by rw [size_absorb]; omega)

lemma embeds_append_right (a b : Automaton) (target : Nat) :
    b.Embeds ((a.absorb b).redirectAll target false a.acceptNodes) a.size := by
  intro id node hn
  refine getElem?_redirectAll _ (embeds_absorb_right a b id node hn) fun hmem => ?_
  have := lt_of_mem_acceptNodes hmem
  omega

theorem language_append (ha : a.Closed) (hb : b.Closed) :
    (a ++ b).language = a.language * b.language := by
  change (append a b).language = _
  unfold append
  split
  · next first entry hfirst hentry =>
    have hr := rerouted_append a b (entry + a.size)
    have htarget := fun v =>
      (embeds_append_right a b (entry + a.size)).accepts_iff (w := v) hb (hb.root_lt entry hentry)
    have hroot : ((a.absorb b).redirectAll (entry + a.size) false a.acceptNodes).root =
        some first := (root_redirectAll ..).trans hfirst
    ext w
    rw [mem_language hroot]
    constructor
    · intro hw
      obtain ⟨node, hn⟩ := exists_node (ha.root_lt first hfirst)
      have hsplit := hr.split (K := b.language) ha (by simp)
        (fun v hv _ => (mem_language hentry).mpr ((htarget v).mp hv)) hw hn (.inl rfl)
      obtain ⟨u, hu, v, hv, rfl⟩ := Language.mem_mul.mp hsplit
      exact Language.append_mem_mul ((mem_language hfirst).mpr hu) hv
    · intro hw
      obtain ⟨u, hu, v, hv, rfl⟩ := Language.mem_mul.mp hw
      have hv' := (htarget v).mpr ((mem_language hentry).mp hv)
      exact hr.join ((mem_language hfirst).mp hu) (.inr hv')
  · next h =>
    rw [language_empty]
    cases hroot : a.root with
    | none => rw [language_eq_zero hroot, zero_mul]
    | some first =>
      cases hentry : b.root with
      | none => rw [language_eq_zero hentry, mul_zero]
      | some entry => exact (h first entry hroot hentry).elim

theorem language_plus (ha : a.Closed) : a.plus.language = a.language * a.language∗ := by
  unfold plus
  split
  · next root hroot =>
    have hr : Rerouted a (a.redirectAll root true a.acceptNodes) root true :=
      rerouted_redirectAll (fun id node hn => by rwa [shift_zero]) le_rfl
    have hroot' : (a.redirectAll root true a.acceptNodes).root = some root :=
      (root_redirectAll ..).trans hroot
    have hlang : a.languageFrom root = a.language := by
      ext w
      exact (mem_language hroot).symm
    obtain ⟨node, hn⟩ := exists_node (ha.root_lt root hroot)
    ext w
    rw [mem_language hroot']
    constructor
    · intro hw
      rw [← hlang]
      refine hr.split ha (fun _ => Language.nil_mem_kstar _) (fun v _ h => ?_) hw hn (.inl rfl)
      rw [← Language.one_add_self_mul_kstar_eq_kstar]
      exact .inr (h node hn)
    · intro hw
      obtain ⟨u, hu, v, hv, rfl⟩ := Language.mem_mul.mp hw
      obtain ⟨parts, rfl, hparts⟩ := Language.mem_kstar.mp hv
      clear hw hv
      induction parts generalizing u with
      | nil => exact hr.join ((mem_language hroot).mp hu) (.inl ⟨rfl, rfl⟩)
      | cons part parts ih =>
        refine hr.join ((mem_language hroot).mp hu) (.inr ?_)
        exact ih part (hparts part List.mem_cons_self)
          (fun y hy => hparts y (List.mem_cons_of_mem part hy))
  · next hroot => rw [language_empty, language_eq_zero hroot, zero_mul]

/-- The texts of one byte of a class. -/
def oneByte (c : ByteClass) : Language UInt8 := {w | ∃ byte, c.contains byte = true ∧ w = [byte]}

lemma mem_oneByte {c : ByteClass} :
    w ∈ oneByte c ↔ ∃ byte, c.contains byte = true ∧ w = [byte] := Iff.rfl

theorem language_ofClass (c : ByteClass) :
    (ofClass c).language = if c.isEpsilon then 1 else oneByte c := by
  have hn : (ofClass c).nodes[0]? = some ⟨c, true, none, none⟩ := rfl
  have hroot : (ofClass c).root = some 0 := rfl
  ext w
  rw [mem_language hroot, accepts_iff hn]
  cases hc : c.isEpsilon with
  | true => simp [Node.Reads, hc]
  | false => simp [Node.Reads, hc, mem_oneByte]

theorem language_epsilon : epsilon.language = 1 := language_ofClass .epsilon

theorem language_optional (ha : a.Closed) : a.optional.language = a.language + 1 := by
  unfold optional
  split
  · next root hroot =>
    ext w
    have hn := getElem?_pushRoot a ⟨.epsilon, true, some root, none⟩
    have hemb := (embeds_pushRoot a ⟨.epsilon, true, some root, none⟩).accepts_iff (w := w) ha
      (ha.root_lt root hroot)
    rw [mem_language rfl, accepts_epsilon_iff hn rfl, Language.mem_add, Language.mem_one,
      mem_language hroot, ← hemb]
    simp [or_comm]
  · next hroot => rw [language_epsilon, language_eq_zero hroot, zero_add]

theorem language_star (ha : a.Closed) : a.star.language = a.language∗ := by
  rw [star, language_optional ha.plus, language_plus ha, add_comm,
    Language.one_add_self_mul_kstar_eq_kstar]

theorem language_replicate (ha : a.Closed) (n : Nat) :
    (a.replicate n).language = a.language ^ n := by
  cases n with
  | zero => exact language_epsilon
  | succ n =>
    have hrepeat : (Nat.repeat (· ++ a) n a).Closed ∧
        (Nat.repeat (· ++ a) n a).language = a.language ^ (n + 1) := by
      induction n with
      | zero => exact ⟨ha, (pow_one _).symm⟩
      | succ n ih =>
        refine ⟨ih.1.append ha, ?_⟩
        rw [pow_succ, ← ih.2]
        exact language_append ih.1 ha
    exact hrepeat.2

lemma chainNodes_cons (byte : UInt8) (rest : List UInt8) :
    chainNodes (byte :: rest) = chainNodes rest ++ [⟨.single byte, rest.length == 0,
      if rest.length = 0 then none else some (rest.length - 1), none⟩] := by
  simp [chainNodes, List.zipIdx_append]

lemma reads_single (byte : UInt8) (accept : Bool) (next alt : Option Nat) :
    Node.Reads ⟨.single byte, accept, next, alt⟩ u ↔ u = [byte] := by
  have he : (ByteClass.single byte).isEpsilon = false := rfl
  simp [Node.Reads, he]

lemma length_chainNodes (bytes : List UInt8) : (chainNodes bytes).length = bytes.length := by
  simp [chainNodes]

lemma embeds_chainNodes (byte : UInt8) (rest : List UInt8) (root root' : Option Nat) :
    Embeds ⟨(chainNodes rest).toArray, root⟩ ⟨(chainNodes (byte :: rest)).toArray, root'⟩ 0 := by
  intro id node hn
  have hid : id < (chainNodes rest).length := by simpa [size] using lt_of_getElem? hn
  rw [List.getElem?_toArray] at hn
  rw [shift_zero, List.getElem?_toArray, chainNodes_cons, Nat.add_zero,
    List.getElem?_append_left hid, hn]

/-- In the chain of a text that is not empty the last node leads through the whole text. -/
lemma accepts_chainNodes (bytes : List UInt8) (root : Option Nat) (h : bytes ≠ []) :
    Accepts ⟨(chainNodes bytes).toArray, root⟩ (bytes.length - 1) w ↔ w = bytes := by
  induction bytes generalizing w root with
  | nil => exact (h rfl).elim
  | cons byte rest ih =>
    have hn : (chainNodes (byte :: rest)).toArray[rest.length]? =
        some ⟨.single byte, rest.length == 0,
          if rest.length = 0 then none else some (rest.length - 1), none⟩ := by
      rw [List.getElem?_toArray, chainNodes_cons, ← length_chainNodes rest,
        List.getElem?_concat_length]
    rw [List.length_cons, Nat.add_sub_cancel, accepts_iff hn]
    cases rest with
    | nil => simp [reads_single]
    | cons second rest =>
      have hin : rest.length < (ofBytes (second :: rest)).size := by
        change _ < (chainNodes (second :: rest)).toArray.size
        rw [List.size_toArray, length_chainNodes, List.length_cons]
        omega
      have hrest : ∀ v, Accepts ⟨(chainNodes (byte :: second :: rest)).toArray, root⟩ rest.length v
          ↔ v = second :: rest := fun v =>
        ((embeds_chainNodes byte (second :: rest) _ root).accepts_iff
          (closed_ofBytes (second :: rest)) hin).trans (ih _ (by simp))
      simp [reads_single, hrest]

theorem language_ofBytes (bytes : List UInt8) : (ofBytes bytes).language = {bytes} := by
  cases bytes with
  | nil => exact language_epsilon
  | cons byte rest =>
    ext w
    have hroot : (ofBytes (byte :: rest)).root = some ((byte :: rest).length - 1) := rfl
    rw [mem_language hroot]
    exact accepts_chainNodes (byte :: rest) _ (by simp)

/-- The constructions denote the regular operations, on every automaton that can be built. -/
theorem language_of_buildable (ha : Buildable a) (hb : Buildable b) (n : Nat) (s : String)
    (c : ByteClass) :
    (a ++ b).language = a.language * b.language ∧
    a.optional.language = a.language + 1 ∧
    a.plus.language = a.language * a.language∗ ∧
    a.star.language = a.language∗ ∧
    (a.replicate n).language = a.language ^ n ∧
    (ofString s).language = {Text.Utf8.encode s} ∧
    (ofClass c).language = (if c.isEpsilon then 1 else oneByte c) ∧
    empty.language = 0 :=
  ⟨language_append ha.closed hb.closed, language_optional ha.closed, language_plus ha.closed,
    language_star ha.closed, language_replicate ha.closed n, language_ofBytes _,
    language_ofClass c, language_empty⟩

/-- A node that leads to itself in both ways, and repetitions of it. -/
theorem language_of_buildable_loop :
    let loop : Automaton := ⟨#[⟨.single 97, true, some 0, some 0⟩], some 0⟩
    ofNodes loop.nodes loop.root = .ok loop ∧
    (loop ++ loop.star).language = loop.language * loop.star.language ∧
    loop.optional.language = loop.language + 1 ∧
    loop.plus.language = loop.language * loop.language∗ ∧
    loop.star.language = loop.language∗ ∧
    (loop.replicate 2).language = loop.language ^ 2 ∧
    (ofString "ab").language = {Text.Utf8.encode "ab"} ∧
    (ofClass .epsilon).language = (if ByteClass.epsilon.isEpsilon then 1 else oneByte .epsilon) ∧
    empty.language = 0 := by
  intro loop
  have htaken : ofNodes loop.nodes loop.root = .ok loop := rfl
  have hloop := Buildable.ofNodes htaken
  exact ⟨htaken, language_of_buildable hloop hloop.star 2 "ab" .epsilon⟩

end ByteLexer.Automaton
