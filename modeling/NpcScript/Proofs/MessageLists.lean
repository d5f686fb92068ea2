import NpcScript.Proofs.Batches
import NpcScript.Proofs.MessageTables
import NpcScript.Proofs.TextFiles
import NpcScript.Proofs.WordBreaks

/-! # Lists of messages

The messages of a run are written one a line, and a line is found by the index
that scripts have for its message. This works because the text of a message is
part of a word, so that a message is never more than one line. -/
namespace NpcScript
open NpcScript.Text

/-- No message holds a blank or a control character. -/
def MessageTable.Clean (t : MessageTable) : Prop :=
  ∀ text ∈ t.messages, ∀ x ∈ text.toList, isBlank x = false ∧ isControl x = false

theorem MessageTable.Clean.register {t : MessageTable} (h : t.Clean) {text : String}
    (ht : ∀ x ∈ text.toList, isBlank x = false ∧ isControl x = false) :
    (t.register text).2.Clean := by
  obtain ⟨_, _, _, he | he⟩ := t.register_spec text
  · rw [he]
    exact h
  · intro other ho
    rw [he] at ho
    rcases Array.mem_push.1 ho with ho | rfl
    · exact h other ho
    · exact ht

/-- The text of a string is part of the word. -/
theorem Reader.mem_of_literal {σ : Type} {r : Reader σ} {n : LineNumber} {s : σ} {l : Lexeme}
    {text : String} (h : (r.read n s l).token.literal? = some text) {x : Char}
    (hx : x ∈ text.toList) : x ∈ l.text := by
  rw [Token.literal?, (r.meaning_read n s l).word_eq, String.toList_ofList] at h
  split at h
  · rename_i chars hw
    cases h
    rw [String.toList_ofList] at hx
    exact List.mem_of_mem_take (WordForm.mem_of_message hw hx)
  · cases h

/-- A compiler for one of several scripts, without the table that they share. -/
structure Job where
  symbols : SymbolTable := .builtin
  resolve : String → Option Int32 := fun _ => none
  limits : Limits := {}
  name : String
  source : List Char

namespace Job

def compile (j : Job) (t : MessageTable) : Compiled MessageTable :=
  Compiler.compile ⟨j.symbols, .ofResolver j.resolve, j.limits⟩ t j.name j.source

/-- The messages of scripts that are compiled one after the other. -/
def collect (jobs : List Job) (t : MessageTable) : MessageTable :=
  jobs.foldl (fun t j => (j.compile t).state) t

theorem clean_compile (j : Job) {t : MessageTable} (h : t.Clean) : (j.compile t).state.Clean := by
  refine Compiler.state_compile_of_step (fun n t body ht l hl => ?_) h j.name j.source
  generalize hr : Compiler.reader ⟨j.symbols, .ofResolver j.resolve, j.limits⟩ = r
  have hhost : r.host = .ofResolver j.resolve := by rw [← hr]; rfl
  cases hlit : (r.read n t l).token.literal? with
  | none =>
    rw [Reader.state_of_not_literal hhost n t l hlit]
    exact ht
  | some text =>
    rw [(Reader.read_of_literal hhost n t l hlit).2.2]
    exact ht.register fun x hx => SourceLine.of_mem_lexemes hl (Reader.mem_of_literal hlit hx)

theorem clean_collect (jobs : List Job) {t : MessageTable} (h : t.Clean) : (collect jobs t).Clean := by
  induction jobs generalizing t with
  | nil => exact h
  | cons j jobs ih => exact ih (j.clean_compile h)

end Job

namespace Command

theorem decode_messageList (t : MessageTable) :
    decode (messageList t) =
      ⟨(t.messages.toList.map String.toList).flatMap (· ++ ['\n']), none⟩ := by
  have he : messageList t = encode ((t.messages.toList.map String.toList).flatMap (· ++ ['\n'])) := by
    rw [messageList, encode, List.flatMap_map, List.flatMap_assoc]
    rfl
  rw [he, decode_encode]

/-- The lines of a message list are the messages, and nothing follows the last. -/
theorem lines_messageList {t : MessageTable} (h : t.Clean) :
    splitAtChar '\n' (decode (messageList t)).text = t.messages.toList.map String.toList ++ [[]] := by
  rw [decode_messageList]
  refine splitAtChar_flatMap ?_
  intro line hl hfeed
  obtain ⟨text, ht, rfl⟩ := List.mem_map.1 hl
  obtain ⟨hb, _⟩ := h text (Array.mem_toList_iff.1 ht) _ hfeed
  cases hb

/-- A content lists the messages of a table: they hold neither blanks nor control
characters, and the text between the line feeds is the messages in the order of
their indices. -/
structure Lists (bytes : List UInt8) (t : MessageTable) : Prop where
  clean : t.Clean
  valid : (decode bytes).fault = none
  lines : splitAtChar '\n' (decode bytes).text = t.messages.toList.map String.toList ++ [[]]
  index : ∀ index : Int32, t.get? index = if index.toInt < 0 then none
    else ((splitAtChar '\n' (decode bytes).text).dropLast[index.toInt.toNat]?).map String.ofList

theorem lists_messageList {t : MessageTable} (h : t.Clean) : Lists (messageList t) t := by
  have hlines := lines_messageList h
  refine ⟨h, by rw [decode_messageList], hlines, ?_⟩
  intro index
  rw [hlines, List.dropLast_concat, MessageTable.get?, List.getElem?_map, Option.map_map,
    Array.getElem?_toList]
  congr 1
  cases t.messages[index.toInt.toNat]? with
  | none => rfl
  | some text => simp

/-! ## Runs -/

section

variable {o : Options} {assets : AssetTable} {path : String} {s s' : Stage}

theorem Stage.clean_compiled {out : Compiled MessageTable} (h : s.compiled o assets path = .ok out)
    (hs : s.messages.Clean) : out.state.Clean := by
  unfold compiled at h
  cases hsource : (s.files.read path).bind (sourceText o.limits.maxSource) with
  | error e =>
    rw [hsource] at h
    cases h
  | ok source =>
    rw [hsource] at h
    cases h
    exact Job.clean_compile ⟨.builtin, assets.resolve, o.limits, path, source⟩ hs

theorem Processes.clean {x : Outcome} (h : Processes o assets path s x s') (hs : s.messages.Clean) :
    s'.messages.Clean := by
  cases h with
  | unread _ => exact hs
  | rejected hout | checked hout | unsaved hout | saved hout => exact Stage.clean_compiled hout hs

theorem Runs.clean {paths : List String} {xs : List Outcome} (h : Runs o assets s paths xs s')
    (hs : s.messages.Clean) : s'.messages.Clean := by
  induction h with
  | nil _ => exact hs
  | cons hstep _ ih => exact ih (hstep.clean hs)

end

/-- **Message lists can be read by index.** Whatever scripts are compiled against
one table, the list of their messages can be read by index. A run that comes to
its end leaves such a list, with the messages that all of its files have left in
the table. -/
theorem messageList_by_index :
    (∀ jobs : List Job, Lists (messageList (Job.collect jobs {})) (Job.collect jobs {})) ∧
    ∀ (o : Options) (path : String) (w : World), o.messages = some path → (w.run o).1 ≠ 2 →
      ∃ assets xs last, o.assetsIn w.files = .ok assets ∧ Runs o assets ⟨w.files, {}⟩ o.files xs last ∧
        (w.run o).2.files.read path = .ok (messageList last.messages) ∧
        Lists (messageList last.messages) last.messages := by
  have hempty : MessageTable.Clean {} := fun _ ht => absurd ht (Array.not_mem_empty _)
  constructor
  · intro jobs
    exact lists_messageList (Job.clean_collect jobs hempty)
  · intro o path w hm hcode
    obtain ⟨assets, xs, last, hassets, hruns, hafter⟩ := run_of_finished o w hcode
    exact ⟨assets, xs, last, hassets, hruns, Options.read_messageList hm hafter,
      lists_messageList (hruns.clean hempty)⟩

/-- Two scripts that share a message, one of them with errors. -/
theorem messageList_by_index_two :
    let files : FileTree :=
      { nodes := [(["a.txt"], .file (encode "tmpx = \"Hi all\" + \"Go\"\nEnd".toList)),
          (["b.txt"], .file (encode "tmpx = 1 \"Go\"".toList))] }
    let o : Options := { files := ["a.txt", "b.txt"], messages := some "list.txt", check := true }
    let w : World := { files }
    o.messages = some "list.txt" ∧ (w.run o).1 ≠ 2 ∧
      (w.run o).2.files.read "list.txt" = .ok (encode "Hi_all\nGo\n".toList) ∧
      ∃ assets xs last, o.assetsIn w.files = .ok assets ∧ Runs o assets ⟨w.files, {}⟩ o.files xs last ∧
        (w.run o).2.files.read "list.txt" = .ok (messageList last.messages) ∧
        Lists (messageList last.messages) last.messages ∧
        messageList last.messages = encode "Hi_all\nGo\n".toList := by
  intro files o w
  have hm : o.messages = some "list.txt" := rfl
  have hcode : (w.run o).1 ≠ 2 := by decide +kernel
  have hlist : (w.run o).2.files.read "list.txt" = .ok (encode "Hi_all\nGo\n".toList) := by
    decide +kernel
  obtain ⟨assets, xs, last, hassets, hruns, hread, hlists⟩ := messageList_by_index.2 o "list.txt" w hm hcode
  refine ⟨hm, hcode, hlist, assets, xs, last, hassets, hruns, hread, hlists, ?_⟩
  rw [hread] at hlist
  exact Except.ok.inj hlist

end Command

end NpcScript
