import LaxJson.Document
import LaxJson.Proofs.Scanner.Simulation
import LaxJson.Proofs.Source.Yields

/-!
# LaxJson.Proofs.Document.Sources

A document does not depend on where its characters come from: scanners agree over any source and
over the list of the characters that it yields.

* `document_ofText`: a text is read as the list of its characters.
* `document_ofDeliveries`: a byte stream is read as the list of the characters that its bytes
  decode to.
* `parseDeliveries_eq_parse`: so a byte stream and the text that it decodes to are read alike,
  errors and their positions included.
-/

namespace LaxJson

theorem Scanner.document_of_yields {σ : Type} [CharSource σ] [FiniteSource σ] {s : σ}
    {cs : List Char} (h : CharSource.Yields s cs) (options : Options) :
    (ofSource s options).document.1 = (ofSource (CharsSource.mk cs) options).document.1 := by
  have hsimulation : Simulation (Lockstep fun (s : σ) (t : CharsSource) =>
      CharSource.Yields s t.chars) := by
    apply Simulation.ofSources
    intro s t hst
    have hread : CharSource.read t = (.ok t.chars.head?, ⟨t.chars.tail⟩) := t.read_eq
    rw [hread]
    exact ⟨hst.head, hst.tail⟩
  exact (hsimulation.document ⟨h, rfl, rfl, rfl⟩).1

theorem Scanner.document_ofText (text : String) (options : Options) :
    (ofText text options).document.1 =
      (ofSource (CharsSource.mk text.toList) options).document.1 :=
  document_of_yields (TextSource.yields_ofText text) options

theorem Scanner.document_ofDeliveries {ds : List Delivery} (h : Delivery.failures ds = [])
    (options : Options) :
    (ofDeliveries ds options).document.1 =
      (ofSource (CharsSource.mk (Utf8.decodeLossy (Delivery.delivered ds))) options).document.1 :=
  document_of_yields (Recorder.yields_ofSource (ByteSource.yields_ofDeliveries h)) options

/-- **A byte stream and the text that it decodes to are read alike.** When no read of the stream
fails for good, the bytes that it delivers have one lossy decoding, and parsing the stream gives
what parsing that text gives: the same value, or the same failure at the same position. How the
bytes are cut into deliveries does not matter. -/
theorem parseDeliveries_eq_parse (ds : List Delivery)
    (h : ∀ e, Delivery.failure e ∈ ds → e.kind = .interrupted) :
    let bs := Delivery.delivered ds
    (∀ cs, Utf8.Lossy bs cs ↔ cs = Utf8.decodeLossy bs) ∧
      parseDeliveries ds = parse (String.ofList (Utf8.decodeLossy bs)) := by
  intro bs
  refine ⟨Utf8.lossy_iff bs, ?_⟩
  calc parseDeliveries ds
      = (Scanner.ofSource (CharsSource.mk (Utf8.decodeLossy bs)) {}).document.1 :=
        Scanner.document_ofDeliveries (Delivery.failures_eq_nil h) {}
    _ = parse (String.ofList (Utf8.decodeLossy bs)) := by
        rw [parse, Scanner.document_ofText, String.toList_ofList]

/-- A three byte character and a malformed byte, cut up and interrupted; the last delivery comes
after the end. -/
theorem parseDeliveries_eq_parse_interrupted :
    let ds : List Delivery := [.bytes [0x5B, 0xE2], .failure ⟨.interrupted, "again"⟩,
      .bytes [0x82], .bytes [0xAC, 0xFF, 0x5D], .bytes [], .bytes [0x5D]]
    (∀ e, Delivery.failure e ∈ ds → e.kind = .interrupted) ∧
      Utf8.decodeLossy (Delivery.delivered ds) = ['[', '€', '\uFFFD', ']'] ∧
      parseDeliveries ds = parse (String.ofList (Utf8.decodeLossy (Delivery.delivered ds))) := by
  intro ds
  have hquiet : ∀ e, Delivery.failure e ∈ ds → e.kind = .interrupted := by
    intro e he
    simp only [ds, List.mem_cons, List.not_mem_nil, reduceCtorEq, false_or, or_false,
      Delivery.failure.injEq] at he
    rw [he]
  refine ⟨hquiet, ?_, (parseDeliveries_eq_parse ds hquiet).2⟩
  simp [ds, Delivery.delivered, Utf8.decodeLossy, Utf8.decodeFirst, Utf8.lead?, Utf8.continuation,
    replacement]

end LaxJson
