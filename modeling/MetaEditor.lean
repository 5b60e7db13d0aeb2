import MetaEditor.Data.Keystroke
import MetaEditor.Data.Order
import MetaEditor.Editor.ReadOnly
import MetaEditor.Editor.Simulation
import MetaEditor.Editor.Titles
import MetaEditor.Lua.Undump
import MetaEditor.Lua.RoundTrip
import MetaEditor.DAO.Object
import MetaEditor.DAO.DatabaseManager
import MetaEditor.DAO.Session
import MetaEditor.DAO.Destroy
import MetaEditor.DAO.Clients
import MetaEditor.Lua.LuaProcessor
import MetaEditor.DAO.Shelf
import MetaEditor.Ui.MainWindow
import MetaEditor.Ui.Install
import MetaEditor.Data.Removal
import MetaEditor.Data.Row
import MetaEditor.DAO.Identity
import MetaEditor.DAO.Connection
import MetaEditor.Lua.Luna
import MetaEditor.Lua.Buffer
import MetaEditor.Lua.Calls
import MetaEditor.Editor.Insertion
import MetaEditor.Editor.LineBreaks
import MetaEditor.Data.Columns
import MetaEditor.Data.Width
import MetaEditor.Data.Shadow
import MetaEditor.Data.Bulk
import MetaEditor.Lua.Failure
import MetaEditor.DAO.Lookup
import MetaEditor.DAO.Update
import MetaEditor.DAO.CreateErrors
import MetaEditor.Editor.KeyText
import MetaEditor.Lua.EditorProxy
import MetaEditor.Data.Dump
import MetaEditor.Data.Interleaving
import MetaEditor.Editor.Lines
import MetaEditor.Editor.Script
import MetaEditor.Editor.Session
import MetaEditor.Editor.Undo
import MetaEditor.Editor.LineNumbers
import MetaEditor.Lua.Accepted
import MetaEditor.Lua.Chunks
import MetaEditor.DAO.Catalogue
import MetaEditor.Ui.Reload
import MetaEditor.Ui.Desk
import MetaEditor.Ui.Scripts
