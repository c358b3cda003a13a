import LocalMarks.Lib.Numeral

/-!
# The error page (response.c)
-/

namespace LocalMarks.Http
open LocalMarks.Lib

/-- From the end of the title to the status code in the card. -/
def errorPageStyle : String :=
  "</title><style>:root \x7b--bg: #ffffff;--text: #222222;--muted: #555555;" ++
  "--accent: #0066cc;--border: #cccccc;\x7dbody.dark \x7b--bg: #1a1a1a;--text: #dddddd;" ++
  "--muted: #aaaaaa;--accent: #66aaff;--border: #444444;\x7d* \x7b" ++
  " box-sizing: border-box; margin: 0; padding: 0; \x7dbody \x7b" ++
  "font-family: Arial, Helvetica, sans-serif;background: var(--bg);color: var(--text);" ++
  "min-height: 100vh;display: flex;justify-content: center;align-items: center;" ++
  "padding: 20px;\x7d.card \x7bwidth: 100%;max-width: 600px;background: var(--bg);" ++
  "border: 1px solid var(--border);padding: 30px;\x7d.code \x7bfont-size: 2.5rem;" ++
  "font-weight: bold;color: var(--accent);\x7d.title \x7bmargin-top: 10px;" ++
  "font-size: 1.3rem;font-weight: bold;\x7d.detail \x7bmargin-top: 12px;" ++
  "color: var(--muted);line-height: 1.5;\x7d.footer \x7bmargin-top: 24px;" ++
  "padding-top: 14px;border-top: 1px solid var(--border);color: var(--muted);" ++
  "font-size: 0.85rem;\x7d</style><script>function updateTheme() \x7b" ++
  "const dark = window.matchMedia('(prefers-color-scheme: dark)').matches;" ++
  "document.body.classList.toggle('dark', dark);\x7d" ++
  "window.addEventListener('DOMContentLoaded', updateTheme);" ++
  "window.matchMedia('(prefers-color-scheme: dark)').addEventListener('change', updateTheme);" ++
  "</script></head><body><div class='card'><div class='code'>"

/-- The page that response_error formats for a status, its text and a detail. -/
def errorPage (status : ℕ) (statusText detail : Bytes) : Bytes :=
  ascii "<!DOCTYPE html><html lang='en'><head><meta charset='utf-8'>" ++
  ascii "<meta name='viewport' content='width=device-width, initial-scale=1'><title>" ++
  numeral 10 status ++ ascii " " ++ statusText ++ ascii errorPageStyle ++ numeral 10 status ++
  ascii "</div><div class='title'>" ++ statusText ++
  ascii "</div><div class='detail'>" ++ detail ++
  ascii "</div><div class='footer'>local-mark/1.1.0</div></div></body></html>"

end LocalMarks.Http
