import LaxJson.Proofs.Scanner.Alike

/-!
# LaxJson.Proofs.Scanner.EntryPoints

Three ways to scan one text: the text itself, the list of its characters, and its UTF-8 bytes as they
are delivered. The first keeps any mark, the other two record what they read. No run of requests
tells them apart while the text is no longer than a mark lasts (`run_entryPoints`).
-/

namespace LaxJson

open CharSource (Yields)

/-! ## Bytes of a text -/

theorem Utf8.decodeLossy_encode (cs : List Char) :
    decodeLossy (cs.flatMap String.utf8EncodeChar) = cs := by
  apply Eq.symm
  rw [← lossy_iff]
  induction cs with
  | nil => exact .nil
  | cons c cs ih => exact .char c ih

theorem toUTF8_toList (text : String) :
    text.toUTF8.data.toList = text.toList.flatMap String.utf8EncodeChar := by
  rw [String.toUTF8, ← String.utf8Encode_toList, List.utf8Encode, List.data_toByteArray]

namespace Delivery

/-- Reads that bring something and do not fail bring every byte. -/
theorem delivered_bytes {pieces : List (List UInt8)} (h : ∀ piece ∈ pieces, piece ≠ []) :
    delivered (pieces.map .bytes) = pieces.flatten := by
  induction pieces with
  | nil => rfl
  | cons piece pieces ih =>
    have hrest := ih fun p hp => h p (List.mem_cons_of_mem piece hp)
    obtain ⟨b, bs, rfl⟩ := List.exists_cons_of_ne_nil (h piece List.mem_cons_self)
    rw [List.map_cons, delivered, hrest, List.flatten_cons]

theorem failures_bytes (pieces : List (List UInt8)) : failures (pieces.map .bytes) = [] := by
  apply failures_eq_nil
  intro e he
  simp at he

end Delivery

namespace Scanner

/-! ## Scanners of a text -/

theorem yields_ofChars (text : String) :
    Yields (Recorder.ofSource (CharsSource.ofText text)) text.toList :=
  Recorder.yields_ofSource (CharsSource.yields (.ofText text))

theorem yields_ofDeliveries {text : String} {pieces : List (List UInt8)}
    (hpieces : ∀ piece ∈ pieces, piece ≠ []) (hbytes : pieces.flatten = text.toUTF8.data.toList) :
    Yields (Recorder.ofSource (ByteSource.ofDeliveries (pieces.map .bytes))) text.toList := by
  have hyields := ByteSource.yields_ofDeliveries (Delivery.failures_bytes pieces)
  rw [Delivery.delivered_bytes hpieces, hbytes, toUTF8_toList, Utf8.decodeLossy_encode] at hyields
  exact Recorder.yields_ofSource hyields

/-- A recorder with no more to come than a mark lasts is as good as the text. -/
theorem run_recorder {σ : Type} [CharSource σ] [FiniteSource σ] {source : Recorder σ} {text : String}
    (hlength : text.length ≤ seekLimit) (hyields : Yields source text.toList) (options : Options)
    (requests : List Request) :
    ((ofSource source options).run requests).1 = ((ofText text options).run requests).1 := by
  have hcorrespond : Correspondence (Lockstep
      (Alike (fun cs => cs.length ≤ seekLimit) : Recorder σ → TextSource → Prop)) := by
    apply correspondence_of_alike (Recorder.markable seekLimit) (TextSource.markable seekLimit)
    · intro cs hcs
      exact Nat.le_trans (List.length_tail ▸ Nat.sub_le _ 1) hcs
    · intro cs hcs n hn
      exact ⟨fun _ => trivial, fun _ => Nat.le_trans hn hcs⟩
  rw [← String.length_toList] at hlength
  have hsame : Alike (fun cs => cs.length ≤ seekLimit) source (TextSource.ofText text) :=
    ⟨text.toList, hlength, hyields, TextSource.yields_ofText text⟩
  exact (hcorrespond.run requests ⟨hsame, rfl, rfl, rfl⟩).1

/-- **It does not matter how a scanner comes by its text.** While the text is no longer than a mark
lasts, its characters and its bytes, cut into any reads, answer every run of requests as the text
does: the same results and failures, with the same position, previous character and end of input
after each. -/
theorem run_entryPoints {text : String} {pieces : List (List UInt8)}
    (hlength : text.length ≤ seekLimit) (hpieces : ∀ piece ∈ pieces, piece ≠ [])
    (hbytes : pieces.flatten = text.toUTF8.data.toList) (options : Options)
    (requests : List Request) :
    ((ofChars text options).run requests).1 = ((ofText text options).run requests).1 ∧
      ((ofDeliveries (pieces.map .bytes) options).run requests).1 =
        ((ofText text options).run requests).1 :=
  ⟨run_recorder hlength (yields_ofChars text) options requests,
    run_recorder hlength (yields_ofDeliveries hpieces hbytes) options requests⟩

/-- A character cut in two, and a search that misses before one that does not. -/
theorem run_entryPoints_cut :
    let text := "[€]"
    let pieces : List (List UInt8) := [[0x5B, 0xE2], [0x82], [0xAC, 0x5D]]
    let requests : List Request := [.seek '#', .next, .stepBack, .seek ']', .next, .next]
    text.length ≤ seekLimit ∧ (∀ piece ∈ pieces, piece ≠ []) ∧
      pieces.flatten = text.toUTF8.data.toList ∧
      ((ofChars text {}).run requests).1 = ((ofText text {}).run requests).1 ∧
      ((ofDeliveries (pieces.map .bytes) {}).run requests).1 = ((ofText text {}).run requests).1 := by
  intro text pieces requests
  have hlength : text.length ≤ seekLimit := by decide
  have hpieces : ∀ piece ∈ pieces, piece ≠ [] := by decide
  have hbytes : pieces.flatten = text.toUTF8.data.toList := by decide
  exact ⟨hlength, hpieces, hbytes, run_entryPoints hlength hpieces hbytes {} requests⟩

end Scanner

end LaxJson
