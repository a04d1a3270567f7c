import ClassOutline.Proofs.Injection.Weaving

/-!
# Injections one after the other

Every injection works on the text of the one before, with the offsets of that
text. Told by the first text the outcome is simple: each block stands before the
brace that its class had there (`Source.Takes`). One injection keeps what the next
one relies on, that a located body ends with a closing brace (`Source.Ready`); the
tree itself need not stay well formed, since nothing is known of the new methods.
-/

namespace ClassOutline

structure MethodRequest where
  className : String
  nested : Bool
  method : String
  deriving DecidableEq, Repr

namespace MethodRequest

def run (r : MethodRequest) (parser : Parser) (origin : Option String) (text : String) :
    Except Failure String :=
  inject parser text r.className r.method r.nested origin

/-- The text after a request. One that fails leaves it. -/
def apply (r : MethodRequest) (parser : Parser) (origin : Option String) (text : String) : String :=
  match r.run parser origin text with
  | .ok updated => updated
  | .error _ => text

end MethodRequest

def injectAll (parser : Parser) (origin : Option String) (text : String)
    (rs : List MethodRequest) : String :=
  rs.foldl (fun text r => r.apply parser origin text) text

def methodBlock (method : String) : Bytes :=
  newline :: Utf8.encode method ++ [newline]

def Parser.read (parser : Parser) (origin : Option String) (text : String) : Source :=
  ⟨parser text, Utf8.encode text, origin⟩

namespace Source

/-- The address of the declaration that a request is for and the offset of its
closing brace. -/
def target? (s : Source) (r : MethodRequest) : Option (Address × Nat) :=
  (s.site? r.className r.nested).bind fun x =>
    x.span?.map fun span => (x.address, span.closing.toNat)

def insertions (s : Source) (rs : List MethodRequest) : List Insertion :=
  rs.filterMap fun r => (s.target? r).map fun t => (t.2, methodBlock r.method)

/-- The methods for one declaration, in the order of the requests. -/
def methodsFor (s : Source) (rs : List MethodRequest) (p : Address) : List String :=
  (rs.filter fun r => (s.target? r).any (·.1 = p)).map (·.method)

end Source

/-! ## What is taken of the parser -/

/-- When a request gives a new text, the parser reads it as the old tree moved
along with the bytes, with new method declarations before the closing brace, and
no name went across that brace. -/
def Parser.Sees (parser : Parser) (origin : Option String) (text : String)
    (r : MethodRequest) : Prop :=
  ∀ x b span offset updated,
    (parser.read origin text).placedNamed? r.className r.nested = some x →
    x.2.bodyIndex? = some b → x.2.bodySpan? = some span → span.closing = (offset : Nat) →
    r.run parser origin text = .ok updated →
    (∀ m ∈ (parser text).preorder, m.label.role = some .name →
      ¬ (m.label.start < offset ∧ offset < m.label.stop)) ∧
    ∃ news, (∀ m ∈ news, m.kind = "method_declaration") ∧
      parser updated = (parser text).inserted offset ((Utf8.encode r.method).length + 2)
        (x.1 ++ [b]) news

/-- The same at every request of a sequence, each on its own text. -/
def Parser.Follows (parser : Parser) (origin : Option String) :
    String → List MethodRequest → Prop
  | _, [] => True
  | text, r :: rs =>
    parser.Sees origin text r ∧ parser.Follows origin (r.apply parser origin text) rs

theorem Parser.Follows.of_append {parser : Parser} {origin : Option String} {text : String}
    {before after : List MethodRequest} (h : parser.Follows origin text (before ++ after)) :
    parser.Follows origin text before := by
  induction before generalizing text with
  | nil => trivial
  | cons r before ih => exact ⟨h.1, ih h.2⟩

/-! ## One injection -/

namespace Source

/-- What an injection relies on: no error is flagged and every body that a name
leads to ends with a closing brace. -/
structure Ready (s : Source) : Prop where
  clear : s.root.label.hasError = false
  braces : ∀ name nested x span, s.site? name nested = some x → x.span? = some span →
    ∃ c : Nat, span.stop = c + 1 ∧ s.bytes[c]? = some 0x7D

theorem ready_of_wellFormed {s : Source} (hclear : s.root.label.hasError = false)
    (hform : s.root.WellFormed s.bytes) : s.Ready := by
  refine ⟨hclear, fun name nested x span hx hspan => ?_⟩
  obtain ⟨y, hy, rfl⟩ := Option.map_eq_some_iff.mp hx
  have hd := (s.reached_of_placedNamed? hy).1.declarationAt?
  obtain ⟨b, body, start, closing, h, rfl⟩ :=
    Declaration.exists_braced (hform.at? (Node.at?_of_declarationAt? hd).1) hspan
  exact ⟨closing, rfl, h.closing_byte⟩

/-- A source after a block came in at an offset: names lead to where they led. -/
structure TakesOne (offset : Nat) (block : Bytes) (s s' : Source) : Prop where
  inside : offset < s.bytes.length
  clear : s'.root.label.hasError = s.root.label.hasError
  bytes : s'.bytes = s.bytes.take offset ++ block ++ s.bytes.drop offset
  sites : ∀ name nested, s'.site? name nested =
    (s.site? name nested).map (Site.shift offset block.length)

section Step

variable {s s' : Source} {offset : Nat} {block : Bytes}

theorem Ready.target (h : s.Ready) {r : MethodRequest} {t : Address × Nat}
    (ht : s.target? r = some t) :
    ∃ x span, s.placedNamed? r.className r.nested = some x ∧ x.1 = t.1 ∧
      x.2.bodySpan? = some span ∧ span.closing = t.2 ∧ s.bytes[t.2]? = some 0x7D := by
  obtain ⟨site, hsite, ht⟩ := Option.bind_eq_some_iff.mp ht
  obtain ⟨span, hspan, rfl⟩ := Option.map_eq_some_iff.mp ht
  obtain ⟨c, hstop, hbyte⟩ := h.braces _ _ _ _ hsite hspan
  obtain ⟨x, hx, rfl⟩ := Option.map_eq_some_iff.mp hsite
  have hc : span.closing = (c : Int) := by
    rw [BodySpan.closing, hstop]
    omega
  refine ⟨x, span, hx, rfl, hspan, ?_, ?_⟩
  · rw [hc, Int.toNat_natCast]
  · rw [hc, Int.toNat_natCast]
    exact hbyte

theorem TakesOne.getElem? (h : TakesOne offset block s s') (c : Nat) :
    s'.bytes[if offset ≤ c then c + block.length else c]? = s.bytes[c]? := by
  have hin := h.inside
  have hlen : (s.bytes.take offset).length = offset := by
    rw [List.length_take]
    omega
  rw [h.bytes]
  split
  · rw [List.getElem?_append_right (by rw [List.length_append, hlen]; omega), List.length_append,
      hlen, List.getElem?_drop]
    congr 1
    omega
  · rw [List.append_assoc, List.getElem?_append_left (by omega),
      List.getElem?_take_of_lt (by omega)]

theorem TakesOne.ready (h : TakesOne offset block s s') (hready : s.Ready) : s'.Ready := by
  refine ⟨h.clear.trans hready.clear, fun name nested x span hx hspan => ?_⟩
  rw [h.sites] at hx
  obtain ⟨y, hy, rfl⟩ := Option.map_eq_some_iff.mp hx
  obtain ⟨t, ht, rfl⟩ := Option.map_eq_some_iff.mp hspan
  obtain ⟨c, hstop, hbyte⟩ := hready.braces name nested y t hy ht
  refine ⟨if offset ≤ c then c + block.length else c, ?_, ?_⟩
  · unfold BodySpan.shift
    simp only
    split <;> split <;> omega
  · rw [h.getElem?, hbyte]

theorem TakesOne.target? (h : TakesOne offset block s s') (hready : s.Ready) (r : MethodRequest) :
    s'.target? r = (s.target? r).map fun t =>
      (t.1, if offset ≤ t.2 then t.2 + block.length else t.2) := by
  unfold Source.target?
  rw [h.sites]
  cases hx : s.site? r.className r.nested with
  | none => rfl
  | some x =>
    cases hspan : x.span? with
    | none => simp [Site.shift, hspan]
    | some span =>
      obtain ⟨c, hstop, _⟩ := hready.braces _ _ _ _ hx hspan
      have hc : span.closing.toNat = c := by
        rw [BodySpan.closing, hstop]
        omega
      have hc' : (span.shift offset block.length).closing.toNat =
          if offset ≤ c then c + block.length else c := by
        rw [BodySpan.closing, BodySpan.shift]
        simp only [hstop]
        split <;> split <;> omega
      simp only [Option.map_some, Option.bind_some, Site.shift, hspan, hc, hc']

theorem TakesOne.insertions (h : TakesOne offset block s s') (hready : s.Ready)
    (rs : List MethodRequest) :
    s'.insertions rs = (s.insertions rs).map (Insertion.shift offset block.length) := by
  unfold Source.insertions
  rw [List.map_filterMap]
  apply List.filterMap_congr
  intro r _
  rw [h.target? hready, Option.map_map, Option.map_map]
  rfl

end Step

end Source

section Run

variable {parser : Parser} {origin : Option String} {text updated : String} {r : MethodRequest}

theorem exists_target?_of_run (h : r.run parser origin text = .ok updated) :
    ∃ t, (parser.read origin text).target? r = some t := by
  cases hlocate : (parser.read origin text).locate r.className r.nested with
  | ok span =>
    obtain ⟨x, hx, hspan⟩ := Source.locate_eq_ok_iff.mp hlocate
    refine ⟨(x.1, span.closing.toNat), ?_⟩
    simp [Source.target?, Source.site?, hx, Placed.site, hspan]
  | error e =>
    unfold Parser.read at hlocate
    unfold MethodRequest.run inject insertionPoint Source.parse at h
    by_cases herror : (parser text).label.hasError = true
    · simp [herror, bind, Except.bind] at h
    · simp [herror, hlocate, bind, Except.bind] at h

theorem MethodRequest.apply_of_target?_eq_none
    (h : (parser.read origin text).target? r = none) : r.apply parser origin text = text := by
  unfold apply
  cases hrun : r.run parser origin text with
  | error e => rfl
  | ok updated =>
    obtain ⟨t, ht⟩ := exists_target?_of_run hrun
    rw [h] at ht
    cases ht

/-- At a closing brace a request succeeds. -/
theorem exists_run_of_target? (hready : (parser.read origin text).Ready) {t : Address × Nat}
    (ht : (parser.read origin text).target? r = some t) :
    ∃ updated, r.run parser origin text = .ok updated := by
  obtain ⟨x, span, hx, _, hspan, hclosing, hbyte⟩ := hready.target ht
  have hlocate := Source.locate_eq_ok_iff.mpr ⟨x, hx, hspan⟩
  have hlt : t.2 < (Utf8.encode text).length := (List.getElem?_eq_some_iff.mp hbyte).1
  have hcut : cutPoint span.closing (Utf8.encode text).length = t.2 := by
    rw [hclosing, cutPoint_of_le (Nat.le_of_lt hlt)]
  rcases Utf8.isBoundary_or_cuts text.toList (Nat.le_of_lt hlt) with
    ⟨before, after, htext, hlen⟩ | ⟨before, c, after, hc⟩
  · exact ⟨_, inject_of_boundary hready.clear hlocate r.method htext (hlen.trans hcut.symm)⟩
  · have hge := hc.getElem_ge hbyte
    exact absurd hge (by decide)

theorem takesOne_of_run (hready : (parser.read origin text).Ready)
    (hsees : parser.Sees origin text r) {t : Address × Nat}
    (ht : (parser.read origin text).target? r = some t)
    (hrun : r.run parser origin text = .ok updated) :
    Source.TakesOne t.2 (methodBlock r.method) (parser.read origin text)
      (parser.read origin updated) := by
  obtain ⟨x, span, hx, _, hspan, hclosing, hbyte⟩ := hready.target ht
  have hlocate := Source.locate_eq_ok_iff.mpr ⟨x, hx, hspan⟩
  have hlt : t.2 < (Utf8.encode text).length := (List.getElem?_eq_some_iff.mp hbyte).1
  have hbytes : Utf8.encode updated = splice (Utf8.encode text) (Utf8.encode r.method) t.2 := by
    rw [← hclosing]
    exact encode_of_inject hready.clear hlocate hrun
  have hwidth : (methodBlock r.method).length = (Utf8.encode r.method).length + 2 := by
    simp [methodBlock]
  obtain ⟨b, hb⟩ : ∃ b, x.2.bodyIndex? = some b := by
    rw [Declaration.bodySpan?_eq, Declaration.body?_eq] at hspan
    obtain ⟨body, hbody, _⟩ := Option.bind_eq_some_iff.mp hspan
    obtain ⟨b, hb, _⟩ := Option.bind_eq_some_iff.mp hbody
    exact ⟨b, hb⟩
  obtain ⟨hnames, news, hnews, htree⟩ := hsees x b span t.2 updated hx hb hspan hclosing hrun
  refine ⟨hlt, ?_, ?_, fun name nested => ?_⟩
  · change (parser updated).label.hasError = (parser text).label.hasError
    rw [htree, Node.inserted, Node.label_modifyAt_append, Node.label_shift]
    rfl
  · exact hbytes.trans (splice_eq _ _ (Nat.le_of_lt hlt))
  · have hsites := (parser.read origin text).site?_inserted (Utf8.encode r.method)
      (Source.reached_of_placedNamed? hx).1 hb hspan (Nat.le_of_lt hlt) hnames hnews name nested
    rw [hwidth, ← hsites, Parser.read, htree, hbytes]
    rfl

/-! ## A sequence of injections -/

namespace Source

/-- A source after blocks came in at offsets of the first one. -/
structure Takes (ins : List Insertion) (s s' : Source) : Prop where
  ready : s'.Ready
  bytes : s'.bytes = weave ins 0 s.bytes
  sites : ∀ name nested, s'.site? name nested = (s.site? name nested).map (Site.moved ins)

theorem Takes.nil {s : Source} (h : s.Ready) : Takes [] s s := by
  refine ⟨h, (weave_eq_self s.bytes fun _ _ => rfl).symm, fun name nested => ?_⟩
  cases s.site? name nested with
  | none => rfl
  | some x => rw [Option.map_some, Site.moved_nil]

theorem Takes.cons {s s₁ s' : Source} {offset : Nat} {block : Bytes} {ins : List Insertion}
    (h : TakesOne offset block s s₁)
    (hrest : Takes (ins.map (Insertion.shift offset block.length)) s₁ s') :
    Takes ((offset, block) :: ins) s s' := by
  refine ⟨hrest.ready, ?_, fun name nested => ?_⟩
  · rw [hrest.bytes, h.bytes, weave_shift ins block h.inside]
  · rw [hrest.sites, h.sites, Option.map_map]
    congr 1
    funext x
    exact x.moved_shift ins offset block

theorem Takes.isSome_target? {s s' : Source} {ins : List Insertion} (h : Takes ins s s')
    (r : MethodRequest) : (s'.target? r).isSome = (s.target? r).isSome := by
  unfold target?
  rw [h.sites]
  cases s.site? r.className r.nested with
  | none => rfl
  | some x => simp [Site.moved]

/-- What could be located still is, with its span moved. -/
theorem Takes.locate {s s' : Source} {ins : List Insertion} (h : Takes ins s s') {name : String}
    {nested : Bool} {span : BodySpan} (hspan : s.locate name nested = .ok span) :
    s'.locate name nested = .ok (span.moved ins) := by
  obtain ⟨x, hx, hxspan⟩ := locate_eq_ok_iff.mp hspan
  have hsite := h.sites name nested
  unfold site? at hsite
  rw [hx, Option.map_some, Option.map_some] at hsite
  obtain ⟨x', hx', hsame⟩ := Option.map_eq_some_iff.mp hsite
  have hspan' : x'.2.bodySpan? = x.2.bodySpan?.map (BodySpan.moved ins) :=
    congrArg Site.span? hsame
  rw [hxspan] at hspan'
  exact locate_eq_ok_iff.mpr ⟨x', hx', hspan'⟩

end Source

theorem takes_injectAll {rs : List MethodRequest} (hready : (parser.read origin text).Ready)
    (h : parser.Follows origin text rs) :
    Source.Takes ((parser.read origin text).insertions rs) (parser.read origin text)
      (parser.read origin (injectAll parser origin text rs)) := by
  induction rs generalizing text with
  | nil => exact .nil hready
  | cons r rs ih =>
    obtain ⟨hsees, hfollows⟩ := h
    cases ht : (parser.read origin text).target? r with
    | none =>
      have hsame := MethodRequest.apply_of_target?_eq_none ht
      rw [hsame] at hfollows
      have hskip : (parser.read origin text).insertions (r :: rs) =
          (parser.read origin text).insertions rs := by
        simp [Source.insertions, ht]
      rw [hskip, injectAll, List.foldl_cons, hsame]
      exact ih hready hfollows
    | some t =>
      obtain ⟨updated, hrun⟩ := exists_run_of_target? hready ht
      have happly : r.apply parser origin text = updated := by
        simp [MethodRequest.apply, hrun]
      have hone := takesOne_of_run hready hsees ht hrun
      have hadd : (parser.read origin text).insertions (r :: rs) =
          (t.2, methodBlock r.method) :: (parser.read origin text).insertions rs := by
        simp [Source.insertions, ht]
      rw [happly] at hfollows
      rw [hadd, injectAll, List.foldl_cons, happly]
      refine Source.Takes.cons hone ?_
      rw [← hone.insertions hready]
      exact ih (hone.ready hready) hfollows

end Run

/-! ## Order -/

theorem Utf8.encode_injective {text text' : String} (h : encode text = encode text') :
    text = text' := by
  have hd := decode_encodeChars text.toList
  have hd' := decode_encodeChars text'.toList
  unfold encode at h
  rw [h, hd'] at hd
  simpa using hd.symm

namespace Source

variable {s : Source}

/-- In a well-formed tree the offset of a brace says whose it is. -/
theorem offset_eq_iff (hclear : s.root.label.hasError = false) (hform : s.root.WellFormed s.bytes)
    {r r' : MethodRequest} {t t' : Address × Nat} (h : s.target? r = some t)
    (h' : s.target? r' = some t') : t'.2 = t.2 ↔ t'.1 = t.1 := by
  have hready := ready_of_wellFormed hclear hform
  obtain ⟨x, span, hx, hp, hspan, hc, _⟩ := hready.target h
  obtain ⟨x', span', hx', hp', hspan', hc', _⟩ := hready.target h'
  have hd := (s.reached_of_placedNamed? hx).1.declarationAt?
  have hd' := (s.reached_of_placedNamed? hx').1.declarationAt?
  rw [← hp, ← hp']
  constructor
  · intro ho
    by_contra hne
    obtain ⟨_, _, _, closing, hb, rfl⟩ :=
      Declaration.exists_braced (hform.at? (Node.at?_of_declarationAt? hd).1) hspan
    obtain ⟨_, _, _, closing', hb', rfl⟩ :=
      Declaration.exists_braced (hform.at? (Node.at?_of_declarationAt? hd').1) hspan'
    have hclosing := closing_ne hform hd' hb' hd hb hne
    simp only [BodySpan.closing] at hc hc'
    omega
  · intro ha
    rw [ha, hd] at hd'
    have he : x.2 = x'.2 := Option.some.inj hd'
    rw [← he, hspan] at hspan'
    have hspans : span = span' := Option.some.inj hspan'
    rw [hspans] at hc
    omega

/-- The blocks before the brace of a declaration are those of its requests. -/
theorem blocksAt_insertions (hclear : s.root.label.hasError = false)
    (hform : s.root.WellFormed s.bytes) {r : MethodRequest} {t : Address × Nat}
    (h : s.target? r = some t) (rs : List MethodRequest) :
    blocksAt (s.insertions rs) t.2 = (s.methodsFor rs t.1).flatMap methodBlock := by
  induction rs with
  | nil => rfl
  | cons r' rs ih =>
    unfold insertions methodsFor at ih ⊢
    cases h' : s.target? r' with
    | none => simp [h', ih]
    | some t' =>
      have hiff := offset_eq_iff hclear hform h h'
      rw [List.filterMap_cons, h', Option.map_some, List.filter_cons, h', Option.any_some]
      simp only [blocksAt_cons, ih, hiff, decide_eq_true_eq]
      split
      · rfl
      · rfl

theorem weave_insertions_congr (hclear : s.root.label.hasError = false)
    (hform : s.root.WellFormed s.bytes) {rs rs' : List MethodRequest}
    (h : ∀ p, s.methodsFor rs' p = s.methodsFor rs p) :
    weave (s.insertions rs') 0 s.bytes = weave (s.insertions rs) 0 s.bytes := by
  refine weave_congr _ fun j _ => ?_
  by_cases hj : ∃ r t, s.target? r = some t ∧ t.2 = 0 + j
  · obtain ⟨r, t, ht, hoffset⟩ := hj
    rw [← hoffset, blocksAt_insertions hclear hform ht, blocksAt_insertions hclear hform ht, h]
  · have hnone : ∀ rs, blocksAt (s.insertions rs) (0 + j) = [] := by
      intro rs
      refine blocksAt_eq_nil fun x hx hxj => hj ?_
      obtain ⟨r, _, hr⟩ := List.mem_filterMap.mp hx
      obtain ⟨t, ht, rfl⟩ := Option.map_eq_some_iff.mp hr
      exact ⟨r, t, ht, hxj⟩
    rw [hnone, hnone]

theorem methodsFor_swap {r r' : MethodRequest}
    (h : ∀ t t', s.target? r = some t → s.target? r' = some t' → t.1 ≠ t'.1)
    (before after : List MethodRequest) (p : Address) :
    s.methodsFor (before ++ r' :: r :: after) p = s.methodsFor (before ++ r :: r' :: after) p := by
  unfold methodsFor
  rw [List.filter_append, List.filter_append]
  congr 2
  cases ht : s.target? r with
  | none => simp [List.filter_cons, ht]
  | some t =>
    cases ht' : s.target? r' with
    | none => simp [List.filter_cons, ht']
    | some t' =>
      have hne := h t t' ht ht'
      by_cases hp : t.1 = p
      · have hp' : t'.1 ≠ p := fun hp' => hne (hp.trans hp'.symm)
        simp [List.filter_cons, ht, ht', hp']
      · simp [List.filter_cons, ht, ht', hp]

end Source

/-- Injections into a text, each on the result of the one before. At every turn a
name leads to the declaration that it led to at first, with its span moved by the
blocks that came in before, and a request succeeds exactly if its class had a closed
body at first. The final text is the first one with the blocks of each declaration,
in the order of its requests, before the brace that the declaration had there.
Sequences with the same methods in the same order for each declaration give the
same text, and two neighbours can change places unless they are for the same one. -/
theorem injectAll_order_independent {parser : Parser} {origin : Option String} {text : String}
    {rs : List MethodRequest} (hform : (parser text).WellFormed (Utf8.encode text))
    (hclear : (parser text).label.hasError = false) (hfollows : parser.Follows origin text rs) :
    let s := parser.read origin text
    (∀ before after, rs = before ++ after → ∀ name nested,
      let now := parser.read origin (injectAll parser origin text before)
      now.site? name nested = (s.site? name nested).map (Site.moved (s.insertions before)) ∧
      ∀ span, s.locate name nested = .ok span →
        now.locate name nested = .ok (span.moved (s.insertions before))) ∧
    (∀ before r after, rs = before ++ r :: after →
      ((∃ updated, r.run parser origin (injectAll parser origin text before) = .ok updated) ↔
        (s.target? r).isSome)) ∧
    Utf8.encode (injectAll parser origin text rs) =
      weave (s.insertions rs) 0 (Utf8.encode text) ∧
    (∀ r p offset, s.target? r = some (p, offset) →
      blocksAt (s.insertions rs) offset = (s.methodsFor rs p).flatMap methodBlock) ∧
    (∀ rs', parser.Follows origin text rs' → (∀ p, s.methodsFor rs' p = s.methodsFor rs p) →
      injectAll parser origin text rs' = injectAll parser origin text rs) ∧
    ∀ before r r' after, rs = before ++ r :: r' :: after →
      parser.Follows origin text (before ++ r' :: r :: after) →
      (∀ t t', s.target? r = some t → s.target? r' = some t' → t.1 ≠ t'.1) →
      injectAll parser origin text (before ++ r' :: r :: after) =
        injectAll parser origin text rs := by
  intro s
  have hready : s.Ready := Source.ready_of_wellFormed hclear hform
  have horder : ∀ rs', parser.Follows origin text rs' →
      (∀ p, s.methodsFor rs' p = s.methodsFor rs p) →
      injectAll parser origin text rs' = injectAll parser origin text rs := by
    intro rs' hfollows' hmethods
    apply Utf8.encode_injective
    have hbytes := (takes_injectAll hready hfollows).bytes
    have hbytes' := (takes_injectAll hready hfollows').bytes
    exact (hbytes'.trans (Source.weave_insertions_congr hclear hform hmethods)).trans hbytes.symm
  refine ⟨?_, ?_, (takes_injectAll hready hfollows).bytes, ?_, horder, ?_⟩
  · rintro before after rfl name nested
    have htakes := takes_injectAll hready hfollows.of_append
    exact ⟨htakes.sites name nested, fun span => htakes.locate⟩
  · rintro before r after rfl
    have htakes := takes_injectAll hready hfollows.of_append
    rw [← htakes.isSome_target? r, Option.isSome_iff_exists]
    constructor
    · rintro ⟨updated, hrun⟩
      exact exists_target?_of_run hrun
    · rintro ⟨t, ht⟩
      exact exists_run_of_target? htakes.ready ht
  · intro r p offset ht
    exact Source.blocksAt_insertions hclear hform ht rs
  · rintro before r r' after rfl hfollows' hne
    exact horder _ hfollows' (Source.methodsFor_swap hne before after)

def withOuterMethod : String :=
  "class A" ++ braced ("class B" ++ braced "" ++ "\nint f();\n")

def withInnerMethod : String :=
  "class A" ++ braced ("class B" ++ braced "\nint g();\n")

def withBothMethods : String :=
  "class A" ++ braced ("class B" ++ braced "\nint g();\n" ++ "\nint f();\n")

/-- The class `A` around `B` as a parser sees it before and after a method `f` came
into the outer class, a method `g` into the inner one, or both. -/
def nestedClassParser : Parser := fun text =>
  if text = nestedClassText then
    nestedClassTree [] 0 [] 0
  else if text = withOuterMethod then
    nestedClassTree [] 0 [bareMethodTree 18 26] 10
  else if text = withInnerMethod then
    nestedClassTree [bareMethodTree 17 25] 10 [] 0
  else
    nestedClassTree [bareMethodTree 17 25] 10 [bareMethodTree 28 36] 10

/-- One method, seen at one request, is all that `Sees` asks for. -/
theorem Parser.sees_of_located {parser : Parser} {origin : Option String} {text updated : String}
    {r : MethodRequest} {p : Address} {d : Declaration} {b start offset : Nat} (news : List Node)
    (hx : (parser.read origin text).placedNamed? r.className r.nested = some (p, d))
    (hb : d.bodyIndex? = some b) (hspan : d.bodySpan? = some ⟨start, offset + 1⟩)
    (hrun : r.run parser origin text = .ok updated)
    (hnames : ∀ m ∈ (parser text).preorder, m.label.role = some .name →
      ¬ (m.label.start < offset ∧ offset < m.label.stop))
    (hnews : ∀ m ∈ news, m.kind = "method_declaration")
    (htree : parser updated = (parser text).inserted offset ((Utf8.encode r.method).length + 2)
      (p ++ [b]) news) : parser.Sees origin text r := by
  intro x b' span offset' updated' hx' hb' hspan' hclosing hrun'
  rw [hx] at hx'
  cases hx'
  rw [hb] at hb'
  cases hb'
  rw [hspan] at hspan'
  cases hspan'
  rw [hrun] at hrun'
  cases hrun'
  have ho : offset = offset' := by
    simp only [BodySpan.closing] at hclosing
    omega
  subst ho
  exact ⟨hnames, news, hnews, htree⟩

def outerRequest : MethodRequest := ⟨"A", false, "int f();"⟩

def innerRequest : MethodRequest := ⟨"B", true, "int g();"⟩

theorem follows_nestedClassParser :
    nestedClassParser.Follows none nestedClassText [outerRequest, innerRequest] ∧
      nestedClassParser.Follows none nestedClassText [innerRequest, outerRequest] := by
  have houter : outerRequest.run nestedClassParser none nestedClassText =
      .ok withOuterMethod := by decide +kernel
  have hinner : innerRequest.run nestedClassParser none nestedClassText =
      .ok withInnerMethod := by decide +kernel
  have hthen : innerRequest.run nestedClassParser none withOuterMethod =
      .ok withBothMethods := by decide +kernel
  have hthen' : outerRequest.run nestedClassParser none withInnerMethod =
      .ok withBothMethods := by decide +kernel
  have hafter : outerRequest.apply nestedClassParser none nestedClassText = withOuterMethod := by
    rw [MethodRequest.apply, houter]
  have hafter' : innerRequest.apply nestedClassParser none nestedClassText = withInnerMethod := by
    rw [MethodRequest.apply, hinner]
  refine ⟨⟨?_, ?_, trivial⟩, ?_, ?_, trivial⟩
  · exact Parser.sees_of_located [bareMethodTree 18 26] rfl rfl rfl houter (by decide +kernel)
      (by decide) rfl
  · rw [hafter]
    exact Parser.sees_of_located [bareMethodTree 17 25] rfl rfl rfl hthen (by decide +kernel)
      (by decide) rfl
  · exact Parser.sees_of_located [bareMethodTree 17 25] rfl rfl rfl hinner (by decide +kernel)
      (by decide) rfl
  · rw [hafter']
    exact Parser.sees_of_located [bareMethodTree 28 36] rfl rfl rfl hthen' (by decide +kernel)
      (by decide) rfl

/-- A method for the outer class and one for the inner class, in both orders. -/
theorem injectAll_outer_and_inner :
    Utf8.encode (injectAll nestedClassParser none nestedClassText [outerRequest, innerRequest]) =
      weave [(17, methodBlock "int f();"), (16, methodBlock "int g();")] 0
        (Utf8.encode nestedClassText) ∧
    injectAll nestedClassParser none nestedClassText [innerRequest, outerRequest] =
      injectAll nestedClassParser none nestedClassText [outerRequest, innerRequest] := by
  have hform : (nestedClassParser nestedClassText).WellFormed (Utf8.encode nestedClassText) :=
    wellFormed_nestedClassTree
  obtain ⟨_, _, hbytes, _, _, hswap⟩ :=
    injectAll_order_independent hform rfl follows_nestedClassParser.1
  have hins : (nestedClassParser.read none nestedClassText).insertions
      [outerRequest, innerRequest] =
        [(17, methodBlock "int f();"), (16, methodBlock "int g();")] := by decide +kernel
  have hfirst : (nestedClassParser.read none nestedClassText).target? outerRequest =
      some ([0], 17) := by decide +kernel
  have hsecond : (nestedClassParser.read none nestedClassText).target? innerRequest =
      some ([0, 1, 1], 16) := by decide +kernel
  refine ⟨hins ▸ hbytes, hswap [] outerRequest innerRequest [] rfl follows_nestedClassParser.2 ?_⟩
  intro t t' ht ht'
  rw [hfirst] at ht
  rw [hsecond] at ht'
  cases ht
  cases ht'
  decide

end ClassOutline
