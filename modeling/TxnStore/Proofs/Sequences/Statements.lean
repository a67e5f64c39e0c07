import TxnStore.Proofs.Sequences.Creation
import TxnStore.Proofs.Values.Literals

/-!
# Statements that create sequences

The statement of a definition leaves out each clause that says what holds anyway, and a name is
quoted only where it is not plain. Still the statement can be read in one way only: the name ends
where a blank stands outside quotes, no clause starts with the words of another one, and what a
clause says has no blank. A clause that is left out comes back from the defaults, since these depend
on nothing but the start and the increment that the statement has.
-/

namespace TxnStore

/-! ## Texts that end at a blank -/

/-- The text is over, or goes on with a blank. -/
def StartsBlank (cs : List Char) : Prop := ∀ c ∈ cs.head?, c = ' '

theorem StartsBlank.ne_quote_cons {cs rest : List Char} (h : StartsBlank cs) :
    cs ≠ '"' :: rest := by
  rintro rfl
  exact absurd (h '"' rfl) (by decide)

theorem append_inj_of_noBlank {as bs r s : List Char} (has : ' ' ∉ as) (hbs : ' ' ∉ bs)
    (hr : StartsBlank r) (hs : StartsBlank s) (h : as ++ r = bs ++ s) : as = bs ∧ r = s := by
  have hpass : ∀ {cs : List Char}, ' ' ∉ cs → ∀ c ∈ cs, (c != ' ') = true := fun hcs c hc =>
    bne_iff_ne.mpr fun hblank => hcs (hblank ▸ hc)
  have hstop : ∀ {cs : List Char}, StartsBlank cs → ∀ c ∈ cs.head?, (c != ' ') = false :=
    fun hcs c hc => bne_eq_false_iff_eq.mpr (hcs c hc)
  exact append_inj_of_all (hpass has) (hpass hbs) (hstop hr) (hstop hs) h

/-! ## Names -/

namespace SequenceDefinition

/-- The name that a quote ends, and what stands behind that quote. -/
def unquote : List Char → List Char × List Char
  | [] => ([], [])
  | '"' :: '"' :: cs => ('"' :: (unquote cs).1, (unquote cs).2)
  | '"' :: cs => ([], cs)
  | c :: cs => (c :: (unquote cs).1, (unquote cs).2)

/-- A quoted name ends at the first quote that is not written twice. -/
theorem unquote_quoted (name : List Char) {rest : List Char} (hrest : StartsBlank rest) :
    unquote (name.flatMap quoteChar ++ '"' :: rest) = (name, rest) := by
  -- By induction on the name, of which only the quotes are doubled.
  induction name with
  | nil =>
    rw [List.flatMap_nil, List.nil_append, unquote]
    intro cs hcs
    exact hrest.ne_quote_cons hcs
  | cons c name ih =>
    by_cases hquote : c = '"'
    · subst hquote
      rw [List.flatMap_cons, quoteChar, if_pos rfl, List.append_assoc, List.cons_append,
        List.cons_append, List.nil_append, unquote, ih]
    · rw [List.flatMap_cons, quoteChar, if_neg hquote, List.append_assoc, List.cons_append,
        List.nil_append, unquote, ih]
      · exact fun _ h => absurd h hquote
      · exact fun h => absurd h hquote

theorem quoted_append_inj {a b r s : List Char} (hr : StartsBlank r) (hs : StartsBlank s)
    (h : a.flatMap quoteChar ++ '"' :: r = b.flatMap quoteChar ++ '"' :: s) : a = b ∧ r = s := by
  have hread := unquote_quoted a hr
  rw [h, unquote_quoted b hs] at hread
  obtain ⟨hname, hrest⟩ := Prod.mk.inj hread
  exact ⟨hname.symm, hrest.symm⟩

/-- A plain name has no blank and no quote at its start. -/
theorem of_isPlainName {name : List Char} (h : isPlainName name = true) :
    ' ' ∉ name ∧ name ≠ [] ∧ ∀ rest, name ≠ '"' :: rest := by
  obtain ⟨hstart, hparts⟩ := Bool.and_eq_true_iff.mp h
  refine ⟨fun hblank => ?_, ?_, ?_⟩
  · exact absurd (List.all_eq_true.mp hparts ' ' hblank) (by decide)
  · rintro rfl
    cases hstart
  · rintro rest rfl
    exact absurd (show isNameStart '"' = true from hstart) (by decide)

/-- The name in a statement can be told from what stands behind it. -/
theorem identifier_append_inj {a b : String} {r s : List Char} (hr : StartsBlank r)
    (hs : StartsBlank s) (h : identifier a ++ r = identifier b ++ s) : a = b ∧ r = s := by
  have key : a.toList = b.toList ∧ r = s := by
    -- A quoted name starts with a quote, and a plain one does not.
    unfold identifier at h
    cases ha : isPlainName a.toList with
    | true =>
      obtain ⟨hblank, hsome, hquote⟩ := of_isPlainName ha
      cases hb : isPlainName b.toList with
      | true =>
        -- Two plain names end at the same blank.
        rw [if_pos ha, if_pos hb] at h
        exact append_inj_of_noBlank hblank (of_isPlainName hb).1 hr hs h
      | false =>
        rw [if_pos ha, if_neg (Bool.eq_false_iff.mp hb)] at h
        obtain ⟨c, cs, hcs⟩ := List.exists_cons_of_ne_nil hsome
        rw [hcs] at h
        -- The first character of the plain name would be a quote.
        exact absurd (hcs.trans (by rw [(List.cons.inj h).1])) (hquote cs)
    | false =>
      cases hb : isPlainName b.toList with
      | true =>
        obtain ⟨-, hsome, hquote⟩ := of_isPlainName hb
        rw [if_neg (Bool.eq_false_iff.mp ha), if_pos hb] at h
        obtain ⟨c, cs, hcs⟩ := List.exists_cons_of_ne_nil hsome
        rw [hcs] at h
        exact absurd (hcs.trans (by rw [← (List.cons.inj h).1])) (hquote cs)
      | false =>
        rw [if_neg (Bool.eq_false_iff.mp ha), if_neg (Bool.eq_false_iff.mp hb)] at h
        simp only [List.cons_append, List.append_assoc, List.nil_append, List.cons.injEq,
          true_and] at h
        -- Two quoted names end at the first quote that is not doubled.
        exact quoted_append_inj hr hs h
  exact ⟨String.toList_inj.mp key.1, key.2⟩

end SequenceDefinition

/-! ## Clauses -/

/-- A clause of a statement: its words, and what it says if it is not left out. -/
structure Clause where
  word : List Char
  said : Option (List Char)
deriving DecidableEq, Repr

namespace Clause

/-- The text of a clause. -/
def chars (c : Clause) : List Char :=
  match c.said with
  | none => []
  | some text => c.word ++ text

def ofNumber (word : String) (n : Option Int64) : Clause :=
  ⟨word.toList, n.map fun n => (toString n.toInt).toList⟩

def ofFlag (word : String) (b : Bool) : Clause := ⟨word.toList, if b then some [] else none⟩

/-- What is said has no blank. -/
def IsTight (c : Clause) : Prop := ∀ text ∈ c.said, ' ' ∉ text

/-- Each of the words starts with a blank, and none is the start of another one. -/
def TellsApart (words : List (List Char)) : Prop :=
  (∀ w ∈ words, w.head? = some ' ') ∧ words.Pairwise fun v w => ¬v <+: w ∧ ¬w <+: v

instance (words : List (List Char)) : Decidable (TellsApart words) := by
  unfold TellsApart
  infer_instance

/-- Clauses that are not all left out begin with the words of one of them. -/
theorem prefix_of_texts (cs : List Clause) :
    cs.flatMap chars = [] ∨ ∃ w ∈ cs.map word, w <+: cs.flatMap chars := by
  -- By induction on the clauses, as the first one that is said starts the text.
  induction cs with
  | nil => exact .inl rfl
  | cons c cs ih =>
    rw [List.flatMap_cons, List.map_cons]
    cases hsaid : c.said with
    | none =>
      rw [chars, hsaid, List.nil_append]
      exact ih.imp_right fun ⟨w, hw, hprefix⟩ => ⟨w, List.mem_cons_of_mem _ hw, hprefix⟩
    | some text =>
      refine .inr ⟨c.word, List.mem_cons_self, ?_⟩
      rw [chars, hsaid]
      exact (List.prefix_append _ _).trans (List.prefix_append _ _)

theorem startsBlank_texts {cs : List Clause} (h : ∀ w ∈ cs.map word, w.head? = some ' ') :
    StartsBlank (cs.flatMap chars) := by
  rcases prefix_of_texts cs with hnone | ⟨w, hw, rest, hrest⟩
  · rw [hnone]
    exact fun _ hc => nomatch hc
  · intro c hc
    obtain ⟨v, hv⟩ := List.head?_eq_some_iff.mp (h w hw)
    rw [← hrest, hv] at hc
    exact (Option.some.inj hc).symm

/-- Clauses with words that can be told apart can be read off their text. -/
theorem eq_of_texts {cs ds : List Clause} (hwords : cs.map word = ds.map word)
    (happart : TellsApart (cs.map word)) (hcs : ∀ c ∈ cs, c.IsTight) (hds : ∀ d ∈ ds, d.IsTight)
    (h : cs.flatMap chars = ds.flatMap chars) : cs = ds := by
  -- By induction on both lists, which have the same words in the same order.
  induction cs generalizing ds with
  | nil => exact (List.map_eq_nil_iff.mp hwords.symm).symm
  | cons c cs ih =>
    cases ds with
    | nil => cases hwords
    | cons d ds =>
      obtain ⟨hword, hrest⟩ := List.cons.inj hwords
      obtain ⟨hblank, hapart⟩ := happart
      obtain ⟨hfirst, hlater⟩ := List.pairwise_cons.mp hapart
      have hblankLater : ∀ w ∈ cs.map word, w.head? = some ' ' := fun w hw =>
        hblank w (List.mem_cons_of_mem _ hw)
      -- A text that starts with the first words cannot start with later ones, or be empty.
      have hother : ∀ es : List Clause, es.map word = cs.map word → ∀ rest,
          c.word ++ rest ≠ es.flatMap chars := by
        intro es hes rest heq
        rcases prefix_of_texts es with hnone | ⟨w, hw, hprefix⟩
        · have hempty := hblank c.word List.mem_cons_self
          rw [(List.append_eq_nil_iff.mp (heq.trans hnone)).1] at hempty
          cases hempty
        · obtain ⟨hnot, hnot'⟩ := hfirst w (hes ▸ hw)
          exact (List.prefix_or_prefix_of_prefix (heq ▸ List.prefix_append _ _) hprefix).elim
            hnot hnot'
      have ihTail : cs.flatMap chars = ds.flatMap chars → cs = ds :=
        ih hrest ⟨hblankLater, hlater⟩ (fun e he => hcs e (List.mem_cons_of_mem _ he))
          fun e he => hds e (List.mem_cons_of_mem _ he)
      obtain ⟨v, said⟩ := c
      obtain ⟨w, said'⟩ := d
      obtain rfl : v = w := hword
      simp only [List.flatMap_cons] at h
      -- A clause said on one side only would start the text of the other side's later clauses.
      cases said with
      | none =>
        cases said' with
        | none => rw [ihTail h]
        | some text =>
          simp only [chars, List.nil_append, List.append_assoc] at h
          exact absurd h.symm (hother cs rfl _)
      | some text =>
        cases said' with
        | none =>
          simp only [chars, List.nil_append, List.append_assoc] at h
          exact absurd h (hother ds hrest.symm _)
        | some text' =>
          -- A clause said on both sides ends where the next one starts with a blank.
          simp only [chars, List.append_assoc, List.append_cancel_left_eq] at h
          obtain ⟨rfl, htail⟩ := append_inj_of_noBlank
            (hcs _ List.mem_cons_self text rfl) (hds _ List.mem_cons_self text' rfl)
            (startsBlank_texts hblankLater) (startsBlank_texts (hrest ▸ hblankLater)) h
          rw [ihTail htail]

/-! ## Numbers -/

theorem noBlank_toString (n : Int) : ' ' ∉ (toString n).toList := by
  intro hblank
  exact (isDigit_or_eq_of_mem_toString hblank).elim (by decide) (by decide)

theorem ofNumber_injective {word : String} {m n : Option Int64}
    (h : ofNumber word m = ofNumber word n) : m = n := by
  refine Option.map_injective (fun i j hij => ?_) (congrArg said h)
  exact Int64.toInt_inj.mp (toString_injective (String.toList_inj.mp hij))

theorem ofFlag_injective {word : String} {a b : Bool} (h : ofFlag word a = ofFlag word b) :
    a = b := by
  have hsaid := congrArg said h
  cases a <;> cases b <;> first | rfl | cases hsaid

theorem isTight_ofNumber (word : String) (n : Option Int64) : (ofNumber word n).IsTight := by
  rintro text htext
  obtain ⟨m, -, rfl⟩ := Option.map_eq_some_iff.mp htext
  exact noBlank_toString m.toInt

theorem isTight_ofFlag (word : String) (b : Bool) : (ofFlag word b).IsTight := by
  rintro text htext
  cases b with
  | false => cases htext
  | true =>
    obtain rfl := Option.some.inj htext
    exact List.not_mem_nil

end Clause

/-! ## Statements of options -/

namespace SequenceOptions

/-- The clauses of what options say. That a sequence is temporary has none. -/
def clauses (o : SequenceOptions) : List Clause :=
  [.ofNumber " START WITH " o.start, .ofNumber " INCREMENT BY " o.increment,
    .ofNumber " MINVALUE " o.minValue, .ofNumber " MAXVALUE " o.maxValue, .ofFlag " CYCLE" o.cycle,
    .ofNumber " CACHE " o.cacheSize, .ofFlag " BELONGS_TO_TABLE" o.belongsToTable]

/-- The statement that creates a sequence and says what the options say, word for word. -/
def statement (o : SequenceOptions) (name : String) : String :=
  String.ofList ("CREATE SEQUENCE ".toList ++ SequenceDefinition.identifier name ++
    o.clauses.flatMap Clause.chars)

variable {o p : SequenceOptions}

theorem words_clauses (o : SequenceOptions) :
    o.clauses.map Clause.word =
      [" START WITH ", " INCREMENT BY ", " MINVALUE ", " MAXVALUE ", " CYCLE", " CACHE ",
        " BELONGS_TO_TABLE"].map String.toList := rfl

theorem tellsApart_clauses (o : SequenceOptions) :
    Clause.TellsApart (o.clauses.map Clause.word) := by
  rw [words_clauses]
  decide

theorem isTight_clauses (o : SequenceOptions) : ∀ c ∈ o.clauses, c.IsTight := by
  simp only [clauses, List.forall_mem_cons, List.not_mem_nil, false_imp_iff, implies_true,
    and_true, Clause.isTight_ofNumber, Clause.isTight_ofFlag]

theorem eq_of_clauses (h : o.clauses = p.clauses) : { o with temporary := p.temporary } = p := by
  simp only [clauses, List.cons.injEq, and_true] at h
  -- Every clause is told apart from the other ones by its word, and so each is read back.
  obtain ⟨hstart, hincrement, hmin, hmax, hcycle, hcache, hbelongs⟩ := h
  obtain ⟨start, increment, cacheSize, minValue, maxValue, cycle, belongs, temporary⟩ := o
  obtain rfl := Clause.ofNumber_injective hstart
  obtain rfl := Clause.ofNumber_injective hincrement
  obtain rfl := Clause.ofNumber_injective hmin
  obtain rfl := Clause.ofNumber_injective hmax
  obtain rfl := Clause.ofNumber_injective hcache
  obtain rfl := Clause.ofFlag_injective hcycle
  obtain rfl := Clause.ofFlag_injective hbelongs
  rfl

/-- A statement has one reading. -/
theorem eq_of_statement {a b : String} (h : o.statement a = p.statement b) :
    a = b ∧ { o with temporary := p.temporary } = p := by
  have hchars := String.ofList_injective h
  rw [List.append_assoc, List.append_assoc, List.append_cancel_left_eq] at hchars
  obtain ⟨hname, htexts⟩ := SequenceDefinition.identifier_append_inj
    (Clause.startsBlank_texts (tellsApart_clauses o).1)
    (Clause.startsBlank_texts (tellsApart_clauses p).1) hchars
  exact ⟨hname, eq_of_clauses (Clause.eq_of_texts rfl (tellsApart_clauses o) (isTight_clauses o)
    (isTight_clauses p) htexts)⟩

end SequenceOptions

/-! ## Statements of definitions -/

/-- A number that has to be said, unless it is the default. -/
def saidUnless (default n : Int64) : Option Int64 := if n = default then none else some n

@[simp] theorem getD_saidUnless (default n : Int64) : (saidUnless default n).getD default = n := by
  unfold saidUnless
  split
  · next hdefault => exact hdefault.symm
  · rfl

namespace SequenceDefinition

/-- What the statement of a definition says: the start, and of the rest what is no default. -/
def stated (d : SequenceDefinition) : SequenceOptions where
  start := some d.start
  increment := saidUnless 1 d.increment
  cacheSize := saidUnless defaultCacheSize d.cacheSize
  minValue := saidUnless (defaultMin (some d.start) d.increment) d.minValue
  maxValue := saidUnless (defaultMax (some d.start) d.increment) d.maxValue
  cycle := d.cycle
  belongsToTable := d.belongsToTable
  temporary := false

theorem chars_ofNumber (word : String) (n : Int64) :
    (Clause.ofNumber word (some n)).chars = word.toList ++ (toString n.toInt).toList := rfl

theorem chars_saidUnless (word : String) (default n : Int64) :
    (Clause.ofNumber word (saidUnless default n)).chars = clause word n default := by
  unfold saidUnless clause
  split <;> rfl

theorem chars_ofFlag (word : String) (b : Bool) :
    (Clause.ofFlag word b).chars = flagClause word b := by
  cases b with
  | false => rfl
  | true => exact List.append_nil _

theorem createSql_eq_statement (d : SequenceDefinition) :
    d.createSql = d.stated.statement d.name := by
  unfold createSql createSqlChars SequenceOptions.statement SequenceOptions.clauses stated
  simp only [List.flatMap_cons, List.flatMap_nil, List.append_nil, chars_ofNumber,
    chars_saidUnless, chars_ofFlag, List.append_assoc]

/-- What the statement leaves out comes back from the defaults. -/
theorem eq_of_stated {a b : SequenceDefinition} (h : a.stated = b.stated) :
    a.start = b.start ∧ a.increment = b.increment ∧ a.minValue = b.minValue ∧
      a.maxValue = b.maxValue ∧ a.cacheSize = b.cacheSize ∧ a.cycle = b.cycle ∧
      a.belongsToTable = b.belongsToTable := by
  -- The defaults are filled in in the order in which they depend on each other.
  have hstart : a.start = b.start := Option.some.inj (congrArg SequenceOptions.start h)
  have hincrement : a.increment = b.increment := by
    simpa [stated] using congrArg (fun o => o.increment.getD 1) h
  have hmin : a.minValue = b.minValue := by
    have hsaid := congrArg
      (fun o => o.minValue.getD (defaultMin (some a.start) a.increment)) h
    simpa [stated, ← hstart, ← hincrement] using hsaid
  have hmax : a.maxValue = b.maxValue := by
    have hsaid := congrArg
      (fun o => o.maxValue.getD (defaultMax (some a.start) a.increment)) h
    simpa [stated, ← hstart, ← hincrement] using hsaid
  have hcache : a.cacheSize = b.cacheSize := by
    simpa [stated] using congrArg (fun o => o.cacheSize.getD defaultCacheSize) h
  exact ⟨hstart, hincrement, hmin, hmax, hcache, congrArg SequenceOptions.cycle h,
    congrArg SequenceOptions.belongsToTable h⟩

end SequenceDefinition

namespace SequenceOptions

theorem cache_of_definition {o : SequenceOptions} {id : ObjectId} {name : String}
    {defaultCache : Int64} {d : SequenceDefinition}
    (h : o.definition id name defaultCache = .ok d) : 1 ≤ d.cacheSize.toInt := by
  simp only [definition] at h
  generalize o.start.getD _ = start at h
  split at h
  · obtain rfl := Except.ok.inj h
    exact one_le_toInt_max _
  · cases h

/-- The statement of a definition that could be made comes to that definition. -/
theorem definition_stated {d : SequenceDefinition}
    (hvalid : AttributesValid d.start d.minValue d.maxValue d.increment)
    (hcache : 1 ≤ d.cacheSize.toInt) (hrest : d.exhausted = false) :
    d.stated.definition d.id d.name defaultCacheSize = .ok d := by
  simp only [definition, SequenceDefinition.stated, getD_saidUnless, Option.getD_some,
    if_pos hvalid, max_one_of_le hcache, ← hrest]

theorem definition_temporary (o : SequenceOptions) (temporary : Bool) (id : ObjectId)
    (name : String) (defaultCache : Int64) :
    { o with temporary }.definition id name defaultCache = o.definition id name defaultCache := rfl

end SequenceOptions

/-- Definitions with one statement have one name and the same attributes. And a statement of options
that reads as that of a definition made from options comes to this definition. -/
theorem SequenceDefinition.createSql_unambiguous :
    (∀ a b : SequenceDefinition, a.createSql = b.createSql →
      a.name = b.name ∧ a.start = b.start ∧ a.increment = b.increment ∧
        a.minValue = b.minValue ∧ a.maxValue = b.maxValue ∧ a.cacheSize = b.cacheSize ∧
        a.cycle = b.cycle ∧ a.belongsToTable = b.belongsToTable) ∧
      ∀ (o : SequenceOptions) (id : ObjectId) (name : String) (defaultCache : Int64)
        (d : SequenceDefinition), o.definition id name defaultCache = .ok d →
        d.stated.statement d.name = d.createSql ∧
          ∀ (p : SequenceOptions) (written : String), p.statement written = d.createSql →
            p.definition d.id written defaultCacheSize = .ok d := by
  -- Both parts go through the statement that the attributes spell out.
  constructor
  · intro a b h
    rw [createSql_eq_statement, createSql_eq_statement] at h
    obtain ⟨hname, hstated⟩ := SequenceOptions.eq_of_statement h
    exact ⟨hname, eq_of_stated hstated⟩
  · intro o id name defaultCache d hd
    refine ⟨(createSql_eq_statement d).symm, fun p written h => ?_⟩
    obtain ⟨hvalid, hrest, -⟩ := SequenceOptions.valid_of_definition hd
    have hcache := SequenceOptions.cache_of_definition hd
    rw [createSql_eq_statement] at h
    obtain ⟨rfl, hstated⟩ := SequenceOptions.eq_of_statement h
    rw [← SequenceOptions.definition_temporary p d.stated.temporary, hstated]
    exact SequenceOptions.definition_stated hvalid hcache hrest

/-- A name with a quote, a blank and a keyword in it; and a sequence without a name that goes down
and is given neither a start nor an upper bound. -/
theorem SequenceDefinition.createSql_unambiguous_of_quoted_name :
    (let a : SequenceDefinition :=
        ⟨⟨1⟩, "a\" CYCLE", -3, 5, -3, 90, -1, true, false, false⟩
      let b : SequenceDefinition := { a with id := ⟨2⟩, exhausted := true }
      a.createSql =
          "CREATE SEQUENCE \"a\"\" CYCLE\" START WITH -3 INCREMENT BY 5 MAXVALUE 90 CYCLE CACHE -1" ∧
        a.createSql = b.createSql ∧ a.name = b.name ∧ a.cacheSize = b.cacheSize) ∧
      let o : SequenceOptions := ⟨none, some (-2), none, some (-9), none, false, true, true⟩
      ∃ d, o.definition ⟨3⟩ "" 7 = .ok d ∧
        d.createSql =
          "CREATE SEQUENCE \"\" START WITH -1 INCREMENT BY -2 MINVALUE -9 CACHE 7 BELONGS_TO_TABLE" ∧
        (SequenceOptions.mk (some (-1)) (some (-2)) (some 7) (some (-9)) none false true
          false).definition ⟨3⟩ "" defaultCacheSize = .ok d := by
  constructor
  · -- Definitions that differ in their identifier and exhaustion are spelled alike.
    intro a b
    have hsame : a.createSql = b.createSql := rfl
    obtain ⟨hname, -, -, -, -, hcache, -⟩ := createSql_unambiguous.1 a b hsame
    exact ⟨by decide +kernel, hsame, hname, hcache⟩
  · -- An empty name is quoted, and the options are given back from the text.
    intro o
    let d : SequenceDefinition := ⟨⟨3⟩, "", -1, -2, -9, -1, 7, false, true, false⟩
    have hmade : o.definition ⟨3⟩ "" 7 = .ok d := rfl
    refine ⟨d, hmade, by decide +kernel, ?_⟩
    exact (createSql_unambiguous.2 o ⟨3⟩ "" 7 d hmade).2 _ "" (by decide +kernel)

end TxnStore
