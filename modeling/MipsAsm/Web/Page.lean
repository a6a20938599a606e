import MipsAsm.Text.Basic
import MipsAsm.Web.Target

/-!
# The page

One page is served under every path but one.  That one is where the page opens its socket, so a
plain request for it is refused.  A request under a path that is not tidy is sent on to the tidy
one, whatever there is.
-/

set_option autoImplicit false

namespace MipsAsm
namespace Web

/-- The lines of the page, with `«` and `»` for the braces of its script. -/
def pageLines : List String :=
  ["<html>",
    "<head>",
    "\t<title>MIPS Assembler</title>",
    "</head>",
    "<body style=\"background-color: #1E1E1E; color: white; font-family: monospace;\">",
    "\t<h1 style=\"display: inline-block;\">MIPS Assembler</h1>",
    "\t<button id=\"assembleButton\" style=\"margin-left: 50px; height: 40px; width: " ++
      "100px;\">ASSEMBLE</button>",
    "\t<br/>",
    "\t<textarea id=\"source\" style=\"width: 980px; height: 300px; background-color: " ++
      "black; color: white;\"></textarea>",
    "\t<div style=\"display: flex; gap: 20px;\">",
    "\t\t<div><h2>Pass One</h2><pre id=\"passOne\"></pre></div>",
    "\t\t<div><h2>Machine Code</h2><pre id=\"hex\"></pre></div>",
    "\t\t<div><h2>Symbols</h2><pre id=\"labels\"></pre></div>",
    "\t\t<div><h2>Relocations</h2><pre id=\"relocations\"></pre></div>",
    "\t</div>",
    "\t<h2>Diagnostics</h2>",
    "\t<pre id=\"diagnostics\"></pre>",
    "",
    "\t<script>",
    "\t\tvar socket;",
    "",
    "\t\tfunction table(entries) «",
    "\t\t\treturn entries.map(function(e) « return e.addr + \"\\t\" + e.name; " ++
      "»).join(\"\\n\");",
    "\t\t»",
    "",
    "\t\tfunction connect() «",
    "\t\t\tsocket = new WebSocket(\"ws://\" + window.location.host + \"/ws\");",
    "\t\t\tsocket.onmessage = function(event) «",
    "\t\t\t\tvar data = JSON.parse(event.data);",
    "\t\t\t\tif (data.type == \"result\") «",
    "\t\t\t\t\tdocument.getElementById(\"passOne\").textContent = data.passOne;",
    "\t\t\t\t\tdocument.getElementById(\"hex\").textContent = data.hex;",
    "\t\t\t\t\tdocument.getElementById(\"labels\").textContent = table(data.labels);",
    "\t\t\t\t\tdocument.getElementById(\"relocations\").textContent = table(data.relocations);",
    "\t\t\t\t\tdocument.getElementById(\"diagnostics\").textContent = " ++
      "data.diagnostics.map(function(d) «",
    "\t\t\t\t\t\treturn (d.range.start.line + 1) + \":\" + d.range.start.character + \": \" " ++
      "+ d.message;",
    "\t\t\t\t\t»).join(\"\\n\");",
    "\t\t\t\t» else if (data.type == \"error\") «",
    "\t\t\t\t\tdocument.getElementById(\"diagnostics\").textContent = data.text;",
    "\t\t\t\t»",
    "\t\t\t»;",
    "\t\t\t// when the socket closes, try to reconnect every 3 seconds",
    "\t\t\tsocket.onclose = function() «",
    "\t\t\t\tsetTimeout(connect, 3000);",
    "\t\t\t»;",
    "\t\t»",
    "\t\tconnect();",
    "",
    "\t\tdocument.getElementById(\"assembleButton\").onclick = function() «",
    "\t\t\tsocket.send(JSON.stringify(«",
    "\t\t\t\ttype: \"assemble\",",
    "\t\t\t\tsource: document.getElementById(\"source\").value",
    "\t\t\t»));",
    "\t\t»;",
    "\t</script>",
    "</body>",
    "</html>"]

/-- The page. -/
def page : String := Text.braced ("\n".intercalate pageLines)

/-- What a plain request is answered with. -/
structure Response where
  /-- The status of the answer. -/
  status : Nat
  /-- What kind of text the body is. -/
  contentType : String
  /-- The body. -/
  body : String
deriving DecidableEq, Repr

/-- An answer without a body. -/
def Response.bare (status : Nat) : Response := { status, contentType := "", body := "" }

/-- An answer with a line of plain text. -/
def Response.plain (status : Nat) (line : String) : Response :=
  { status, contentType := "text/plain; charset=utf-8", body := line ++ "\n" }

/-- The path of the socket. -/
def socketPath : Path := [bytesOf "ws"]

/-- A character as it is written in a page. -/
def markupChar (c : Char) : String :=
  match c with
  | '&' => "&amp;"
  | '<' => "&lt;"
  | '>' => "&gt;"
  | '\"' => "&#34;"
  | '\'' => "&#39;"
  | c => String.singleton c

/-- A text as it is written in a page. -/
def markup (s : String) : String := String.join (s.toList.map markupChar)

/-- Send a request on to another target.  Only a request that wants to read gets to know what kind
of answer it is, and only one that wants a body gets one. -/
def redirect (method : String) (t : Target) : Response :=
  let contentType := "text/html; charset=utf-8"
  match method with
  | "GET" =>
    { status := 301, contentType,
      body := "<a href=\"" ++ markup t.text ++ "\">Moved Permanently</a>.\n\n" }
  | "HEAD" => { status := 301, contentType, body := "" }
  | _ => Response.bare 301

/-- The answer to a plain request with a method and a target.  The socket cannot be used with one,
and under every other path there is the page.  There is none if the target cannot be read.

A request without a method wants to read.  The method `CONNECT` asks for a connection to a server,
so its target is a server unless it is a path, and its path is taken as it is. -/
def respond (method target : String) : Option Response :=
  let method := if method = "" then "GET" else method
  let connects : Bool := method == "CONNECT"
  if target = "*" then some (Response.bare 400)
  else
    let namesServer : Bool := connects && target.toList.head? != some '/'
    (Target.parse? (if namesServer then "http://" ++ target else target)).map fun t ↦
      if !connects && tidy t.path != t.path then redirect method { t with path := tidy t.path }
      else if t.path = [] then Response.plain 404 "404 page not found"
      else if t.path = socketPath then Response.plain 400 "Bad Request"
      else { status := 200, contentType := "text/html", body := page }

end Web
end MipsAsm
